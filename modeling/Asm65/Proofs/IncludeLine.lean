import Asm65.Include
import Asm65.Proofs.LongestMatch
import Mathlib

/-!
# Lines that include a file

An include line is described here by its parts, from left to right, and not by how it is
read: blanks, the keyword in any case, and behind it a blank or the end of the line.  What
follows the keyword names the path, with blanks and at most one quotation mark at each end.

The keyword can also be looked for by its length in bytes.  A line may hold characters of
several bytes anywhere, and then the offset behind eight bytes need not be the end of a
character; but wherever the keyword is found it is one.
-/

namespace Asm65

/-!
# Capitals
-/

namespace Text

theorem isAlpha_of_isLower {c : Char} (h : c.isLower = true) : c.isAlpha = true := by
  rw [Char.isAlpha, h, Bool.or_true]

/-- Only letters become capitals. -/
theorem eq_of_toUpper_eq {c d : Char} (h : c.toUpper = d) (hd : d.isUpper = false) : c = d := by
  by_cases hlower : c.isLower
  · rw [<- h, Char.isUpper_toUpper_eq_isAlpha, isAlpha_of_isLower hlower] at hd
    cases hd
  · rw [<- h, Char.toUpper_eq_of_not_isLower hlower]

theorem isBlank_of_isAlpha {c : Char} (h : c.isAlpha = true) : isBlank c = false := by
  have hrange : 65 ≤ c.toNat ∧ c.toNat ≤ 122 := by
    rcases Bool.or_eq_true_iff.mp h with hupper | hlower
    · have hupper : 65 ≤ c.toNat ∧ c.toNat ≤ 90 := of_decide_eq_true hupper
      omega
    · have hlow : 97 ≤ c.toNat := of_decide_eq_true (Bool.and_elim_left hlower)
      have hhigh : c.toNat ≤ 122 := of_decide_eq_true (Bool.and_elim_right hlower)
      omega
  simp [isBlank]
  omega

theorem isBlank_toUpper (c : Char) : isBlank c.toUpper = isBlank c := by
  by_cases hlower : c.isLower
  · have halpha := isAlpha_of_isLower hlower
    rw [isBlank_of_isAlpha halpha, isBlank_of_isAlpha (by rwa [Char.isAlpha_toUpper_eq_isAlpha])]
  · rw [Char.toUpper_eq_of_not_isLower hlower]

theorem trimStart_upperChars (cs : List Char) :
    trimStart (upperChars cs) = upperChars (trimStart cs) := by
  have hblank : isBlank ∘ Char.toUpper = isBlank := funext isBlank_toUpper
  rw [trimStart, upperChars, List.dropWhile_map, hblank]
  rfl

theorem upperChars_upperChars (cs : List Char) : upperChars (upperChars cs) = upperChars cs := by
  rw [upperChars, upperChars, List.map_map]
  apply List.map_congr_left
  intro c _
  exact Char.toUpper_toUpper_eq_toUpper c

/-!
# Blanks around a text
-/

/-- The code points with the Unicode property `White_Space`. -/
def whiteSpace : List Nat :=
  [0x09, 0x0A, 0x0B, 0x0C, 0x0D, 0x20, 0x85, 0xA0, 0x1680, 0x2000, 0x2001, 0x2002, 0x2003, 0x2004,
    0x2005, 0x2006, 0x2007, 0x2008, 0x2009, 0x200A, 0x2028, 0x2029, 0x202F, 0x205F, 0x3000]

theorem isBlank_iff {c : Char} : isBlank c = true <-> c.toNat ∈ whiteSpace := by
  simp only [isBlank, whiteSpace, Bool.or_eq_true, Bool.and_eq_true, decide_eq_true_eq, beq_iff_eq,
    List.mem_cons, List.not_mem_nil, or_false]
  omega

theorem isBlank_eq_false_iff {c : Char} : isBlank c = false <-> c.toNat ∉ whiteSpace := by
  rw [<- isBlank_iff, Bool.not_eq_true]

/-- A text that neither begins nor ends with a blank. -/
structure IsBare (cs : List Char) : Prop where
  first : forall c, cs.head? = some c -> c.toNat ∉ whiteSpace
  last : forall c, cs.getLast? = some c -> c.toNat ∉ whiteSpace

/-- The blanks on both sides of a text are all that `cs` has more than `ds`. -/
structure TrimsTo (cs ds : List Char) : Prop where
  around : exists before after, cs = before ++ (ds ++ after) ∧
    (forall c, c ∈ before -> c.toNat ∈ whiteSpace) ∧ (forall c, c ∈ after -> c.toNat ∈ whiteSpace)
  bare : IsBare ds

theorem head?_dropWhile {cs : List Char} {c : Char}
    (h : (cs.dropWhile isBlank).head? = some c) : c.toNat ∉ whiteSpace := by
  have hstop := List.head?_dropWhile_not isBlank cs
  rw [h] at hstop
  exact isBlank_eq_false_iff.mp hstop

theorem mem_takeWhile {cs : List Char} {c : Char} (h : c ∈ cs.takeWhile isBlank) :
    c.toNat ∈ whiteSpace :=
  isBlank_iff.mp (List.mem_takeWhile_imp h)

theorem trimStart_eq_self {cs : List Char}
    (h : forall c, cs.head? = some c -> c.toNat ∉ whiteSpace) : trimStart cs = cs := by
  cases cs with
  | nil => rfl
  | cons c cs =>
      apply List.dropWhile_cons_of_neg
      exact mt isBlank_iff.mp (h c rfl)

theorem trimStart_append {before cs : List Char}
    (h : forall c, c ∈ before -> c.toNat ∈ whiteSpace) :
    trimStart (before ++ cs) = trimStart cs :=
  List.dropWhile_append_of_pos fun c hc => isBlank_iff.mpr (h c hc)

theorem trimEnd_append {cs after : List Char}
    (hafter : forall c, c ∈ after -> c.toNat ∈ whiteSpace)
    (hlast : forall c, cs.getLast? = some c -> c.toNat ∉ whiteSpace) :
    trimEnd (cs ++ after) = cs := by
  -- read backwards, the blanks at the end are those at the start
  have hbehind : forall c, c ∈ after.reverse -> c.toNat ∈ whiteSpace :=
    fun c hc => hafter c (List.mem_reverse.mp hc)
  have hfirst : forall c, cs.reverse.head? = some c -> c.toNat ∉ whiteSpace := by
    intro c hc
    rw [List.head?_reverse] at hc
    exact hlast c hc
  have hback : trimStart (cs ++ after).reverse = cs.reverse := by
    rw [List.reverse_append, trimStart_append hbehind, trimStart_eq_self hfirst]
  exact (congrArg List.reverse hback).trans cs.reverse_reverse

theorem exists_trimEnd (cs : List Char) :
    exists after, cs = trimEnd cs ++ after ∧ forall c, c ∈ after -> c.toNat ∈ whiteSpace := by
  refine ⟨(cs.reverse.takeWhile isBlank).reverse, ?_, ?_⟩
  · rw [trimEnd, <- List.reverse_append, List.takeWhile_append_dropWhile, List.reverse_reverse]
  · intro c hc
    exact mem_takeWhile (List.mem_reverse.mp hc)

theorem isBare_trim (cs : List Char) : IsBare (trim cs) := by
  constructor
  · intro c hc
    rcases exists_trimEnd (trimStart cs) with ⟨after, hafter, _⟩
    have hhead : (trimStart cs).head? = some c := by
      rw [hafter, List.head?_append, show (trimEnd (trimStart cs)).head? = some c from hc]
      rfl
    exact head?_dropWhile hhead
  · intro c hc
    rw [trim, trimEnd, List.getLast?_reverse] at hc
    exact head?_dropWhile hc

theorem trimsTo_trim (cs : List Char) : TrimsTo cs (trim cs) := by
  rcases exists_trimEnd (trimStart cs) with ⟨after, hafter, hblanks⟩
  constructor
  · refine ⟨cs.takeWhile isBlank, after, ?_, fun c hc => mem_takeWhile hc, hblanks⟩
    rw [trim, <- hafter, trimStart, List.takeWhile_append_dropWhile]
  · exact isBare_trim cs

theorem trim_of_trimsTo {cs ds : List Char} (h : TrimsTo cs ds) : trim cs = ds := by
  rcases h.around with ⟨before, after, rfl, hbefore, hafter⟩
  rw [trim, trimStart_append hbefore]
  cases ds with
  | nil =>
      have hnil : trimStart after = [] :=
        List.dropWhile_eq_nil_iff.mpr fun c hc => isBlank_iff.mpr (hafter c hc)
      rw [List.nil_append, hnil]
      rfl
  | cons d ds =>
      have hfirst : trimStart (d :: ds ++ after) = d :: ds ++ after :=
        trimStart_eq_self h.bare.first
      rw [hfirst, trimEnd_append hafter h.bare.last]

theorem trim_eq_iff {cs ds : List Char} : trim cs = ds <-> TrimsTo cs ds := by
  constructor
  · rintro rfl
    exact trimsTo_trim cs
  · exact trim_of_trimsTo

end Text

/-!
# Quotation marks
-/

namespace Include

/-- A text without the quotation mark that it begins with, if there is one. -/
inductive OpensTo : List Char -> List Char -> Prop where
  | quoted (cs : List Char) : OpensTo ('"' :: cs) cs
  | plain {cs : List Char} : cs.head? ≠ some '"' -> OpensTo cs cs

/-- A text without the quotation mark that it ends with, if there is one. -/
inductive ClosesTo : List Char -> List Char -> Prop where
  | quoted (cs : List Char) : ClosesTo (cs ++ ['"']) cs
  | plain {cs : List Char} : cs.getLast? ≠ some '"' -> ClosesTo cs cs

/--
What follows the keyword names a path: it stands between blanks and then between quotation
marks, each of which may be missing, and then between blanks again.
-/
def Names (rest path : List Char) : Prop :=
  exists quoted closed inner, Text.TrimsTo rest quoted ∧ OpensTo quoted closed ∧
    ClosesTo closed inner ∧ Text.TrimsTo inner path

theorem opensTo_iff {cs ds : List Char} : OpensTo cs ds <-> dropOpenQuote cs = ds := by
  constructor
  · intro h
    cases h with
    | quoted => rfl
    | plain hhead =>
        unfold dropOpenQuote
        split
        · exact (hhead rfl).elim
        · rfl
  · rintro rfl
    unfold dropOpenQuote
    split
    · exact .quoted _
    · next hplain =>
        apply OpensTo.plain
        intro hhead
        rcases List.head?_eq_some_iff.mp hhead with ⟨ds, hds⟩
        exact hplain ds hds

theorem closesTo_iff {cs ds : List Char} : ClosesTo cs ds <-> dropCloseQuote cs = ds := by
  constructor
  · intro h
    cases h with
    | quoted => simp [dropCloseQuote]
    | plain hlast => rw [dropCloseQuote, if_neg hlast]
  · rintro rfl
    unfold dropCloseQuote
    split
    · next hlast =>
        rcases List.getLast?_eq_some_iff.mp hlast with ⟨ds, rfl⟩
        rw [List.dropLast_concat]
        exact .quoted ds
    · next hlast => exact .plain hlast

theorem names_iff {rest path : List Char} : Names rest path <-> unquote rest = path := by
  simp only [Names, <- Text.trim_eq_iff, opensTo_iff, closesTo_iff]
  constructor
  · rintro ⟨_, _, _, rfl, rfl, rfl, hpath⟩
    exact hpath
  · intro hpath
    exact ⟨_, _, _, rfl, rfl, rfl, hpath⟩

/-!
# The parts of an include line
-/

/-- A line that includes a file, with `rest` behind the keyword. -/
structure IsIncludeLine (line rest : List Char) : Prop where
  parts : exists gap word, line = gap ++ (word ++ rest) ∧
    (forall c, c ∈ gap -> c.toNat ∈ Text.whiteSpace) ∧ word.map Char.toUpper = ".INCLUDE".toList
  ends : forall c, rest.head? = some c -> c.toNat ∈ Text.whiteSpace

theorem keyword_eq : keyword = ['.', 'I', 'N', 'C', 'L', 'U', 'D', 'E'] := by
  decide +kernel

theorem length_of_keyword {word : List Char} (h : Text.upperChars word = keyword) :
    word.length = keyword.length := by
  rw [<- h, Text.upperChars, List.length_map]

/-- The keyword begins with a dot, so blanks in front of it end there. -/
theorem trimStart_keyword {word : List Char} (h : Text.upperChars word = keyword)
    (rest : List Char) : Text.trimStart (word ++ rest) = word ++ rest := by
  rw [keyword_eq] at h
  apply Text.trimStart_eq_self
  intro c hc
  cases word with
  | nil => cases h
  | cons d word =>
      cases hc
      have hdot : c.toUpper = '.' := (List.cons.inj h).left
      rw [<- Text.isBlank_eq_false_iff, <- Text.isBlank_toUpper, hdot]
      rfl

/-- Where the keyword ends is fixed by its length, so a line has one rest at most. -/
theorem isIncludeLine_iff {line rest : List Char} :
    IsIncludeLine line rest <->
      Text.upperChars ((Text.trimStart line).take keyword.length) = keyword ∧
      (Text.trimStart line).drop keyword.length = rest ∧
      forall c, rest.head? = some c -> c.toNat ∈ Text.whiteSpace := by
  constructor
  · intro h
    rcases h.parts with ⟨gap, word, rfl, hgap, hword⟩
    have hlength := length_of_keyword hword
    rw [Text.trimStart_append hgap, trimStart_keyword hword, List.take_left' hlength,
      List.drop_left' hlength]
    exact ⟨hword, rfl, h.ends⟩
  · rintro ⟨hword, rfl, hends⟩
    refine ⟨⟨line.takeWhile Text.isBlank, _, ?_, ?_, hword⟩, hends⟩
    · rw [List.take_append_drop, Text.trimStart, List.takeWhile_append_dropWhile]
    · exact fun c hc => Text.mem_takeWhile hc

theorem pathChars?_of_isIncludeLine {line rest : List Char} (h : IsIncludeLine line rest) :
    pathChars? line = some (unquote rest) := by
  rcases isIncludeLine_iff.mp h with ⟨hword, hrest, hends⟩
  simp only [pathChars?, hword, if_true, hrest]
  cases rest with
  | nil => rfl
  | cons c rest => exact if_pos (Text.isBlank_iff.mpr (hends c rfl))

theorem exists_isIncludeLine {line path : List Char} (h : pathChars? line = some path) :
    exists rest, IsIncludeLine line rest := by
  simp only [isIncludeLine_iff, exists_and_left, exists_eq_left']
  unfold pathChars? at h
  simp only at h
  split at h
  · next hword =>
      refine ⟨hword, ?_⟩
      intro c hc
      rcases List.head?_eq_some_iff.mp hc with ⟨rest, hrest⟩
      rw [hrest] at h
      simp only at h
      split at h
      · next hblank => exact Text.isBlank_iff.mp hblank
      · cases h
  · cases h

theorem path?_of_isIncludeLine {line : String} {rest : List Char}
    (h : IsIncludeLine line.toList rest) : path? line = some (String.ofList (unquote rest)) := by
  rw [path?, pathChars?_of_isIncludeLine h, Option.map_some]

theorem isSome_path?_iff {line : String} :
    (path? line).isSome = true <-> exists rest, IsIncludeLine line.toList rest := by
  constructor
  · intro h
    rw [path?, Option.isSome_map] at h
    rcases Option.isSome_iff_exists.mp h with ⟨path, hpath⟩
    exact exists_isIncludeLine hpath
  · rintro ⟨rest, hrest⟩
    rw [path?_of_isIncludeLine hrest]
    rfl

theorem path?_eq_none_iff {line : String} :
    path? line = none <-> forall rest, ¬ IsIncludeLine line.toList rest := by
  rw [<- Option.not_isSome_iff_eq_none, isSome_path?_iff, not_exists]

theorem path?_iff_names {line path : String} {rest : List Char}
    (h : IsIncludeLine line.toList rest) : path? line = some path <-> Names rest path.toList := by
  rw [path?_of_isIncludeLine h, names_iff, Option.some.injEq, <- String.toList_inj,
    String.toList_ofList]

theorem path?_eq_some_iff {line path : String} :
    path? line = some path <->
      exists rest, IsIncludeLine line.toList rest ∧ Names rest path.toList := by
  constructor
  · intro h
    rcases isSome_path?_iff.mp (Option.isSome_of_eq_some h) with ⟨rest, hrest⟩
    exact ⟨rest, hrest, (path?_iff_names hrest).mp h⟩
  · rintro ⟨rest, hrest, hpath⟩
    exact (path?_iff_names hrest).mpr hpath

/-- The keyword may be in either case, so capitals make no include line and hide none. -/
theorem pathChars?_upperChars (line : List Char) :
    pathChars? (Text.upperChars line) = none <-> pathChars? line = none := by
  unfold pathChars?
  simp only [Text.trimStart_upperChars]
  generalize Text.trimStart line = cs
  have htake : Text.upperChars ((Text.upperChars cs).take keyword.length) =
      Text.upperChars (cs.take keyword.length) := by
    rw [<- Text.upperChars_upperChars (cs.take keyword.length)]
    exact congrArg Text.upperChars List.map_take.symm
  have hdrop : (Text.upperChars cs).drop keyword.length =
      Text.upperChars (cs.drop keyword.length) :=
    List.map_drop.symm
  rw [htake, hdrop]
  split
  · cases cs.drop keyword.length with
    | nil => simp [Text.upperChars]
    | cons c rest => simp [Text.upperChars, Text.isBlank_toUpper]
  · rfl

theorem isSome_path?_upper (line : String) :
    (path? (Text.upper line)).isSome = (path? line).isSome := by
  have hnone := pathChars?_upperChars line.toList
  rw [path?, path?, Text.upper, String.toList_ofList, Option.isSome_map, Option.isSome_map,
    Bool.eq_iff_iff, Option.isSome_iff_ne_none, Option.isSome_iff_ne_none]
  exact not_congr hnone

end Include

/-!
# The keyword by its bytes
-/

namespace Text

/-- Cuts a text at a byte offset, unless that lies within a character or behind the end. -/
def cutAt? (text : String) (offset : Nat) : Option (String × String) :=
  if h : String.Pos.Raw.isValid text ⟨offset⟩ = true then
    let p : text.Pos := ⟨⟨offset⟩, String.Pos.Raw.isValid_eq_true_iff.mp h⟩
    some ((text.sliceTo p).copy, (text.sliceFrom p).copy)
  else none

theorem cutAt?_eq_some_iff {text before behind : String} {offset : Nat} :
    cutAt? text offset = some (before, behind) <->
      text = before ++ behind ∧ before.utf8ByteSize = offset := by
  unfold cutAt?
  constructor
  · intro h
    split at h
    · next hvalid =>
        cases h
        have hsplits := String.Pos.splits
          ⟨⟨offset⟩, String.Pos.Raw.isValid_eq_true_iff.mp hvalid⟩
        have hoffset := congrArg String.Pos.Raw.byteIdx hsplits.offset_eq_rawEndPos
        exact ⟨hsplits.eq_append, hoffset.symm⟩
    · cases h
  · rintro ⟨htext, rfl⟩
    have hvalid : String.Pos.Raw.IsValid text ⟨before.utf8ByteSize⟩ :=
      String.Pos.Raw.isValid_iff_exists_append.mpr ⟨before, behind, htext, rfl⟩
    have hsplits : String.Pos.Splits ⟨⟨before.utf8ByteSize⟩, hvalid⟩ before behind :=
      ⟨htext, rfl⟩
    rw [dif_pos (String.Pos.Raw.isValid_eq_true_iff.mpr hvalid)]
    exact congrArg some (Prod.ext hsplits.copy_sliceTo_eq hsplits.copy_sliceFrom_eq)

/-- Only an ASCII character has an ASCII character for its capital. -/
theorem ascii_of_toUpper {c : Char} (h : c.toUpper.toNat < 128) : c.toNat < 128 := by
  by_cases hlower : c.isLower = true
  · have hhigh : c.toNat ≤ 122 := of_decide_eq_true (Bool.and_elim_right hlower)
    omega
  · rwa [Char.toUpper_eq_of_not_isLower hlower] at h

end Text

namespace Include

/-- How many bytes the keyword takes. -/
def keywordWidth : Nat :=
  (String.ofList keyword).utf8ByteSize

/--
The path on a line, looked for by byte offsets: the keyword in front of its width, and the path
behind it.  There is no answer at all if the path would be cut off within a character.
-/
def pathAtOffset? (line : String) : Option (Option String) :=
  let text := String.ofList (Text.trimStart line.toList)
  match Text.cutAt? text keywordWidth with
  | none => some none
  | some (head, _) =>
      if Text.upperChars head.toList = keyword then
        (Text.cutAt? text keywordWidth).map fun (_, rest) =>
          if rest.toList.head?.any (!Text.isBlank ·) then none
          else some (String.ofList (unquote rest.toList))
      else some none

theorem ascii_of_keyword {word : List Char} (h : Text.upperChars word = keyword) {c : Char}
    (hc : c ∈ word) : c.toNat < 128 := by
  have hkeyword : keyword.all (·.toNat < 128) = true := by
    rw [keyword_eq]
    rfl
  have hmem : c.toUpper ∈ keyword := by
    rw [<- h]
    exact List.mem_map_of_mem hc
  exact Text.ascii_of_toUpper (of_decide_eq_true (List.all_eq_true.mp hkeyword _ hmem))

theorem utf8ByteSize_of_keyword {word : List Char} (h : Text.upperChars word = keyword) :
    (String.ofList word).utf8ByteSize = keywordWidth := by
  have hkeyword : Text.upperChars keyword = keyword := by
    rw [keyword_eq]
    rfl
  rw [keywordWidth, Text.utf8ByteSize_of_ascii fun c hc => ascii_of_keyword h hc,
    Text.utf8ByteSize_of_ascii fun c hc => ascii_of_keyword hkeyword hc, length_of_keyword h]

/-- The keyword takes its width in bytes in any case, so its end is the end of a character. -/
theorem cutAt?_keyword {word : List Char} (h : Text.upperChars word = keyword)
    (rest : List Char) :
    Text.cutAt? (String.ofList (word ++ rest)) keywordWidth =
      some (String.ofList word, String.ofList rest) :=
  Text.cutAt?_eq_some_iff.mpr ⟨String.ofList_append, utf8ByteSize_of_keyword h⟩

/-- Characters and bytes find the same keyword, and the path behind it can always be cut off. -/
theorem pathAtOffset?_eq (line : String) : pathAtOffset? line = some (path? line) := by
  unfold pathAtOffset? path? pathChars?
  generalize Text.trimStart line.toList = cs
  simp only
  by_cases hword : Text.upperChars (cs.take keyword.length) = keyword
  · have hcut := cutAt?_keyword hword (cs.drop keyword.length)
    rw [List.take_append_drop] at hcut
    simp only [hcut, String.toList_ofList, hword, if_true, Option.map_some]
    cases cs.drop keyword.length with
    | nil => rfl
    | cons c rest =>
        cases hblank : Text.isBlank c with
        | false => simp [hblank]
        | true => simp [hblank]
  · -- a head that spells the keyword would be as many characters as bytes
    have hhead : forall head rest,
        Text.cutAt? (String.ofList cs) keywordWidth = some (head, rest) ->
          Text.upperChars head.toList ≠ keyword := by
      intro head rest hcut hkeyword
      have hchars := congrArg String.toList (Text.cutAt?_eq_some_iff.mp hcut).left
      rw [String.toList_ofList, String.toList_append] at hchars
      rw [hchars, List.take_left' (length_of_keyword hkeyword)] at hword
      exact hword hkeyword
    rw [if_neg hword]
    cases hcut : Text.cutAt? (String.ofList cs) keywordWidth with
    | none => rfl
    | some parts => simp [hhead parts.1 parts.2 hcut]

/--
A line is an include line exactly if it has the parts of one, whatever the case of its letters.
The path is what its rest names, without blanks at its ends.  No character is ever cut in two.
-/
theorem path?_recognises_include_lines (line : String) :
    ((path? line).isSome = true <-> exists rest, IsIncludeLine line.toList rest) ∧
    (forall rest path, IsIncludeLine line.toList rest ->
      (path? line = some path <-> Names rest path.toList)) ∧
    (forall path, path? line = some path -> Text.IsBare path.toList) ∧
    (path? (Text.upper line)).isSome = (path? line).isSome ∧
    pathAtOffset? line = some (path? line) := by
  refine ⟨isSome_path?_iff, fun rest path => path?_iff_names, ?_, isSome_path?_upper line,
    pathAtOffset?_eq line⟩
  intro path hpath
  rcases path?_eq_some_iff.mp hpath with ⟨rest, _, hnames⟩
  rcases hnames with ⟨_, _, _, _, _, _, htrims⟩
  exact htrims.bare

/-- A line whose path opens a quotation and does not close it, with blanks beyond ASCII. -/
def openQuotation : String :=
  "\u3000.inClude\u00A0\" é.asm"

theorem openQuotation_recognised :
    path? openQuotation = some "é.asm" ∧
      IsIncludeLine openQuotation.toList "\u00A0\" é.asm".toList ∧
      Names "\u00A0\" é.asm".toList "é.asm".toList ∧
      path? ".includé lib" = none ∧ pathAtOffset? ".includé lib" = some none := by
  have hpath : path? openQuotation = some "é.asm" := by decide +kernel
  have hother : path? ".includé lib" = none := by decide +kernel
  have hline : IsIncludeLine openQuotation.toList "\u00A0\" é.asm".toList := by
    have hhead : "\u00A0\" é.asm".toList.head? = some '\u00A0' := by decide +kernel
    refine isIncludeLine_iff.mpr ⟨by decide +kernel, by decide +kernel, ?_⟩
    intro c hc
    rw [<- Option.some.inj (hhead.symm.trans hc)]
    decide
  rcases path?_recognises_include_lines openQuotation with ⟨_, hnames, _⟩
  rcases path?_recognises_include_lines ".includé lib" with ⟨_, _, _, _, hoffset⟩
  rw [hother] at hoffset
  exact ⟨hpath, hline, (hnames _ "é.asm" hline).mp hpath, hother, hoffset⟩

end Include
end Asm65
