import Asm65.Proofs.Outcome
import Mathlib.Data.List.TakeWhile

/-!
# Lexemes

The number of a line and the columns within it only show in failures.  What a line reads
as, if it can be read, is a matter of its characters alone.

A lexeme ends where a character follows that cannot be part of a word.  The written forms of
names, mnemonics, directives and numbers are lexemes of their tokens, in front of anything
that ends them.
-/

namespace Asm65

/-!
# Characters of lexemes
-/

namespace Lexeme

/-- The letters of names.  Lines are in capitals when they are scanned. -/
def letterChars : List Char :=
  "ABCDEFGHIJKLMNOPQRSTUVWXYZ".toList

def decimalChars : List Char :=
  "0123456789".toList

/-- The characters that a name or a directive goes on with. -/
def wordChars : List Char :=
  letterChars ++ decimalChars ++ ['_']

/-- The characters between lexemes. -/
def spaceChars : List Char :=
  [' ', '\t', '\r', '\n']

/-- A list holds the characters of an interval if it holds one for each code. -/
theorem mem_of_code {chars : List Char} {low high : Nat}
    (hall : (List.range' low (high + 1 - low)).all (fun n => chars.contains (Char.ofNat n)) =
      true) {c : Char} (h : low ≤ c.toNat ∧ c.toNat ≤ high) : c ∈ chars := by
  have hcode : c.toNat ∈ List.range' low (high + 1 - low) := by
    rw [List.mem_range'_1]
    omega
  have hmem := List.contains_iff_mem.mp (List.all_eq_true.mp hall _ hcode)
  rwa [Char.ofNat_toNat] at hmem

end Lexeme

/-!
# Classes of characters

Each class of the scan is an interval of code points, or a few of them.
-/

namespace Shape

open Lexeme

theorem isLetter_iff {c : Char} : isLetter c = true <-> 65 ≤ c.toNat ∧ c.toNat ≤ 90 := by
  simp only [isLetter, Bool.and_eq_true, decide_eq_true_eq]
  exact Iff.rfl

theorem isDecimal_iff {c : Char} : isDecimal c = true <-> 48 ≤ c.toNat ∧ c.toNat ≤ 57 := by
  simp only [isDecimal, Bool.and_eq_true, decide_eq_true_eq]
  exact Iff.rfl

theorem isLetter_iff_mem {c : Char} : isLetter c = true <-> c ∈ letterChars := by
  constructor
  · intro h
    exact mem_of_code (by decide) (isLetter_iff.mp h)
  · have hall : letterChars.all isLetter = true := by decide
    exact List.all_eq_true.mp hall c

theorem isDecimal_iff_mem {c : Char} : isDecimal c = true <-> c ∈ decimalChars := by
  constructor
  · intro h
    exact mem_of_code (by decide) (isDecimal_iff.mp h)
  · have hall : decimalChars.all isDecimal = true := by decide
    exact List.all_eq_true.mp hall c

theorem isWordChar_iff_mem {c : Char} : isWordChar c = true <-> c ∈ wordChars := by
  simp only [isWordChar, wordChars, Bool.or_eq_true, beq_iff_eq, isLetter_iff_mem,
    isDecimal_iff_mem, List.mem_append, List.mem_singleton]

theorem isSpace_iff_mem {c : Char} : Token.isSpace c = true <-> c ∈ spaceChars := by
  simp [Token.isSpace, spaceChars, or_assoc]

theorem isSpace_eq_false_iff {c : Char} : Token.isSpace c = false <-> c ∉ spaceChars := by
  rw [<- isSpace_iff_mem, Bool.not_eq_true]

theorem isHexDigit_iff {c : Char} :
    Hex.isDigit c = true <-> isDecimal c = true ∨ (65 ≤ c.toNat ∧ c.toNat ≤ 70) := by
  rw [isDecimal_iff]
  unfold Hex.isDigit Hex.value?
  split
  · next hdecimal =>
      exact iff_of_true rfl (Or.inl hdecimal)
  · next hdecimal =>
      split
      · next hletter =>
          exact iff_of_true rfl (Or.inr hletter)
      · next hletter =>
          exact iff_of_false (fun h => nomatch h) (fun h => h.elim hdecimal hletter)

theorem isWordChar_of_isHexDigit {c : Char} (h : Hex.isDigit c = true) :
    isWordChar c = true := by
  rw [isHexDigit_iff] at h
  simp only [isWordChar, Bool.or_eq_true]
  rcases h with hdecimal | hletter
  · exact Or.inl (Or.inr hdecimal)
  · exact Or.inl (Or.inl (isLetter_iff.mpr ⟨hletter.left, by omega⟩))

theorem isWordChar_of_continues {shape : Shape} {c : Char} (h : shape.continues c = true) :
    isWordChar c = true := by
  cases shape with
  | mark t => cases h
  | number => exact isWordChar_of_isHexDigit h
  | directive => exact h
  | name => exact h

theorem isSpace_of_ofFirst? {c : Char} {shape : Shape} (h : ofFirst? c = some shape) :
    Token.isSpace c = false := by
  cases hspace : Token.isSpace c with
  | false =>
      rfl
  | true =>
      simp only [Token.isSpace, Bool.or_eq_true, beq_iff_eq] at hspace
      rcases hspace with ((rfl | rfl) | rfl) | rfl <;> cases h

theorem ofFirst?_of_isDecimal {c : Char} (h : isDecimal c = true) :
    ofFirst? c = some .number := by
  unfold ofFirst?
  split
  case h_9 => rw [if_pos h]
  all_goals cases h

theorem ofFirst?_of_isLetter {c : Char} (h : isLetter c = true) :
    ofFirst? c = some .name := by
  have hdecimal : ¬ isDecimal c = true := by
    rw [isLetter_iff] at h
    rw [isDecimal_iff]
    omega
  unfold ofFirst?
  split
  case h_9 => rw [if_neg hdecimal, if_pos h]
  all_goals cases h

theorem isLetter_of_ofFirst?_name {c : Char} (h : ofFirst? c = some .name) :
    isLetter c = true := by
  unfold ofFirst? at h
  split at h
  case h_9 =>
    split at h
    · cases h
    · split at h
      · assumption
      · cases h
  all_goals cases h

/--
The characters between a blank and an underscore, without the semicolon.  They are not
changed by capitals, end no line and begin no comment.
-/
def IsPlain (c : Char) : Prop :=
  32 ≤ c.toNat ∧ c.toNat ≤ 95 ∧ c ≠ ';'

theorem isPlain_of_isLetter {c : Char} (h : isLetter c = true) : IsPlain c := by
  have hrange := isLetter_iff.mp h
  refine ⟨by omega, by omega, ?_⟩
  rintro rfl
  cases h

theorem isPlain_of_isDecimal {c : Char} (h : isDecimal c = true) : IsPlain c := by
  have hrange := isDecimal_iff.mp h
  refine ⟨by omega, by omega, ?_⟩
  rintro rfl
  cases h

theorem isPlain_of_isWordChar {c : Char} (h : isWordChar c = true) : IsPlain c := by
  simp only [isWordChar, Bool.or_eq_true, beq_iff_eq] at h
  rcases h with (hletter | hdecimal) | rfl
  · exact isPlain_of_isLetter hletter
  · exact isPlain_of_isDecimal hdecimal
  · exact ⟨by decide, by decide, by decide⟩

theorem isPlain_of_ofFirst? {c : Char} {shape : Shape} (h : ofFirst? c = some shape) :
    IsPlain c := by
  unfold ofFirst? at h
  split at h
  case h_9 =>
    split at h
    · next hdecimal => exact isPlain_of_isDecimal hdecimal
    · split at h
      · next hletter => exact isPlain_of_isLetter hletter
      · cases h
  all_goals exact ⟨by decide, by decide, by decide⟩

end Shape

/-!
# Scans
-/

namespace Token

/-- The characters read as the tokens, on every line and from every column. -/
def Scans (cs : List Char) (ts : List Token) : Prop :=
  forall line column, scan line column cs = .ok ts

theorem scans_nil : Scans [] [] := by
  intro line column
  rw [scan]

theorem scans_space {c : Char} {cs : List Char} {ts : List Token} (hc : isSpace c = true)
    (h : Scans cs ts) : Scans (c :: cs) ts := by
  intro line column
  rw [scan, if_pos hc]
  exact h line (column + 1)

/-- A step of the scan over the longest lexeme that its first character allows. -/
theorem scan_lexeme {c : Char} {shape : Shape} {body rest : List Char} {t : Token}
    (hfirst : Shape.ofFirst? c = some shape)
    (hbody : forall d, d ∈ body -> shape.continues d = true)
    (hrest : forall d, rest.head? = some d -> shape.continues d = false)
    (htoken : shape.token c body = .ok t) (line column : Nat) :
    scan line column (c :: (body ++ rest)) =
      (scan line (column + 1 + body.length) rest).map (t :: ·) := by
  have hstop : rest.takeWhile shape.continues = [] ∧ rest.dropWhile shape.continues = rest := by
    cases rest with
    | nil => exact ⟨rfl, rfl⟩
    | cons d ds => simp [hrest d rfl]
  have htake : (body ++ rest).takeWhile shape.continues = body := by
    rw [List.takeWhile_append_of_pos hbody, hstop.left, List.append_nil]
  have hdrop : (body ++ rest).dropWhile shape.continues = rest := by
    rw [List.dropWhile_append_of_pos hbody, hstop.right]
  rw [scan, Shape.isSpace_of_ofFirst? hfirst, hfirst]
  simp only [Bool.false_eq_true, if_false, htake, hdrop, htoken]

theorem scans_lexeme {c : Char} {shape : Shape} {body rest : List Char} {t : Token}
    {ts : List Token} (hfirst : Shape.ofFirst? c = some shape)
    (hbody : forall d, d ∈ body -> shape.continues d = true)
    (hrest : forall d, rest.head? = some d -> shape.continues d = false)
    (htoken : shape.token c body = .ok t) (h : Scans rest ts) :
    Scans (c :: (body ++ rest)) (t :: ts) := by
  intro line column
  rw [scan_lexeme hfirst hbody hrest htoken, h]
  rfl

theorem scans_mark {c : Char} {t : Token} {rest : List Char} {ts : List Token}
    (hfirst : Shape.ofFirst? c = some (.mark t)) (h : Scans rest ts) :
    Scans (c :: rest) (t :: ts) := by
  show Scans (c :: ([] ++ rest)) (t :: ts)
  apply scans_lexeme hfirst _ _ rfl h
  · intro d hd
    cases hd
  · intro d hd
    rfl

/-!
# Scans that succeed

A scan passes over spaces and takes up lexemes, each as long as it can be.  The rule of
induction over these steps is all that has to be known about a scan that succeeds.
-/

theorem scan_induction {motive : List Char -> List Token -> Prop} (nil : motive [] [])
    (space : forall c cs ts, isSpace c = true -> motive cs ts -> motive (c :: cs) ts)
    (lexeme : forall c shape body rest t ts, Shape.ofFirst? c = some shape ->
      (forall d, d ∈ body -> shape.continues d = true) ->
      (forall d, rest.head? = some d -> shape.continues d = false) ->
      shape.token c body = .ok t -> motive rest ts -> motive (c :: (body ++ rest)) (t :: ts))
    {line column : Nat} {cs : List Char} {ts : List Token}
    (h : scan line column cs = .ok ts) : motive cs ts := by
  fun_induction scan line column cs generalizing ts with
  | case1 column =>
      cases h
      exact nil
  | case2 column c cs hspace ih =>
      exact space c cs ts hspace (ih h)
  | case3 column c cs hspace hfirst =>
      cases h
  | case4 column c cs hspace shape hfirst =>
      cases h
  | case5 column c cs hspace shape hfirst =>
      rename_i body t htoken ih
      rcases map_eq_ok_iff.mp h with ⟨us, hus, rfl⟩
      have hstop : forall d, (cs.dropWhile shape.continues).head? = some d ->
          shape.continues d = false := by
        intro d hd
        have hhead := List.head?_dropWhile_not shape.continues cs
        rw [hd] at hhead
        exact hhead
      have hlexeme := lexeme c shape body _ t us hfirst
        (fun d hd => List.mem_takeWhile_imp hd) hstop htoken (ih hus)
      rwa [List.takeWhile_append_dropWhile] at hlexeme

/-- A scan that succeeds does so wherever the line stands. -/
theorem scans_of_scan {line column : Nat} {cs : List Char} {ts : List Token}
    (h : scan line column cs = .ok ts) : Scans cs ts := by
  apply scan_induction (motive := Scans) _ _ _ h
  · exact scans_nil
  · intro c cs ts hspace ih
    exact scans_space hspace ih
  · intro c shape body rest t ts hfirst hbody hrest htoken ih
    exact scans_lexeme hfirst hbody hrest htoken ih

/-!
# Text in front of other text

What a piece of a line reads as depends on how the line goes on.  Pieces are put together
where no lexeme can go over from one to the next.
-/

/-- No lexeme can go on into these characters. -/
def Breaks (rest : List Char) : Prop :=
  forall c, rest.head? = some c -> Shape.isWordChar c = false

theorem breaks_nil : Breaks [] := by
  intro c h
  cases h

theorem breaks_cons {c : Char} {rest : List Char} (h : Shape.isWordChar c = false) :
    Breaks (c :: rest) := by
  intro d hd
  cases hd
  exact h

theorem Breaks.append {cs rest : List Char} (hcs : Breaks cs) (hrest : Breaks rest) :
    Breaks (cs ++ rest) := by
  cases cs with
  | nil => exact hrest
  | cons c cs => exact breaks_cons (hcs c rfl)

/-- Plain characters that read as the tokens wherever they are broken off. -/
structure Spells (cs : List Char) (ts : List Token) : Prop where
  plain : forall c, c ∈ cs -> Shape.IsPlain c
  reads : forall rest us, Breaks rest -> Scans rest us -> Scans (cs ++ rest) (ts ++ us)

theorem Spells.scans {cs : List Char} {ts : List Token} (h : Spells cs ts) : Scans cs ts := by
  have hscans := h.reads [] [] breaks_nil scans_nil
  rwa [List.append_nil, List.append_nil] at hscans

theorem spells_nil : Spells [] [] := by
  constructor
  · intro c hc
    cases hc
  · intro rest us _ hrest
    exact hrest

theorem Spells.append {cs ds : List Char} {ts us : List Token} (hcs : Spells cs ts)
    (hbreaks : Breaks ds) (hds : Spells ds us) : Spells (cs ++ ds) (ts ++ us) := by
  constructor
  · intro c hc
    rcases List.mem_append.mp hc with hleft | hright
    · exact hcs.plain c hleft
    · exact hds.plain c hright
  · intro rest vs hrest hvs
    rw [List.append_assoc, List.append_assoc]
    apply hcs.reads
    · exact hbreaks.append hrest
    · exact hds.reads rest vs hrest hvs

theorem spells_mark {c : Char} {t : Token} {cs : List Char} {ts : List Token}
    (hfirst : Shape.ofFirst? c = some (.mark t)) (h : Spells cs ts) :
    Spells (c :: cs) (t :: ts) := by
  constructor
  · exact List.forall_mem_cons.mpr ⟨Shape.isPlain_of_ofFirst? hfirst, h.plain⟩
  · intro rest us hrest hus
    exact scans_mark hfirst (h.reads rest us hrest hus)

theorem spells_space {cs : List Char} {ts : List Token} (h : Spells cs ts) :
    Spells (' ' :: cs) ts := by
  constructor
  · exact List.forall_mem_cons.mpr ⟨⟨by decide, by decide, by decide⟩, h.plain⟩
  · intro rest us hrest hus
    exact scans_space rfl (h.reads rest us hrest hus)

theorem spells_of_token {c : Char} {shape : Shape} {body : List Char} {t : Token}
    (hfirst : Shape.ofFirst? c = some shape)
    (hbody : forall d, d ∈ body -> shape.continues d = true)
    (htoken : shape.token c body = .ok t) : Spells (c :: body) [t] := by
  constructor
  · refine List.forall_mem_cons.mpr ⟨Shape.isPlain_of_ofFirst? hfirst, ?_⟩
    intro d hd
    exact Shape.isPlain_of_isWordChar (Shape.isWordChar_of_continues (hbody d hd))
  · intro rest ts hbreaks hrest
    apply scans_lexeme hfirst hbody _ htoken hrest
    intro d hd
    cases hcontinues : shape.continues d with
    | false =>
        rfl
    | true =>
        have hword := Shape.isWordChar_of_continues hcontinues
        rw [hbreaks d hd] at hword
        cases hword

/-- A name: a letter, then letters, digits and underscores. -/
def IsName (cs : List Char) : Prop :=
  exists c body, cs = c :: body ∧ c ∈ Lexeme.letterChars ∧
    forall d, d ∈ body -> d ∈ Lexeme.wordChars

theorem isName_iff {cs : List Char} :
    IsName cs <->
      exists c body, cs = c :: body ∧ Shape.isLetter c = true ∧
        forall d, d ∈ body -> Shape.isWordChar d = true := by
  simp only [IsName, Shape.isLetter_iff_mem, Shape.isWordChar_iff_mem]

theorem spells_name {cs : List Char} (h : IsName cs) :
    Spells cs [.ofName (String.ofList cs)] := by
  rcases isName_iff.mp h with ⟨c, body, rfl, hletter, hbody⟩
  exact spells_of_token (Shape.ofFirst?_of_isLetter hletter) hbody rfl

/-- A name that stands for a label. -/
structure IsLabelName (name : String) : Prop where
  isName : IsName name.toList
  unreserved : Mnemonic.ofName? name = none

theorem spells_label {name : String} (h : IsLabelName name) :
    Spells name.toList [.label name] := by
  have hspells := spells_name h.isName
  rw [String.ofList_toList, ofName, h.unreserved] at hspells
  exact hspells

theorem isName_mnemonic (m : Mnemonic) : IsName m.name.toList := by
  cases m <;> exact isName_iff.mpr ⟨_, _, rfl, rfl, List.all_eq_true.mp rfl⟩

theorem ofName?_name (m : Mnemonic) : Mnemonic.ofName? m.name = some m := by
  cases m <;> rfl

theorem spells_mnemonic (m : Mnemonic) : Spells m.name.toList [.mnemonic m] := by
  have hspells := spells_name (isName_mnemonic m)
  rw [String.ofList_toList, ofName, ofName?_name] at hspells
  exact hspells

theorem spells_directive {name : String}
    (h : forall d, d ∈ name.toList -> Shape.isWordChar d = true) :
    Spells ('.' :: name.toList) [.directive name] := by
  have hfirst : Shape.ofFirst? '.' = some .directive := rfl
  apply spells_of_token hfirst h
  rw [Shape.token, String.ofList_toList]

theorem spells_number {c : Char} {body : List Char} {n : UInt16}
    (hfirst : Shape.ofFirst? c = some .number)
    (hbody : forall d, d ∈ body -> Hex.isDigit d = true)
    (hread : Numeral.read (c :: body) = .ok n) : Spells (c :: body) [.number n] := by
  apply spells_of_token hfirst hbody
  rw [Shape.token, hread]
  rfl

end Token

/-!
# Numerals
-/

namespace Numeral

theorem readFrom_cons {radix : Radix} {value d : Nat} {c : Char} {cs : List Char}
    (hdigit : radix.digit? c = some d) (hle : value * radix.base + d ≤ 65535) :
    readFrom radix value (c :: cs) = readFrom radix (value * radix.base + d) cs := by
  rw [readFrom, hdigit]
  simp only [hle, if_true]

theorem readFrom_append (radix : Radix) (value : Nat) (cs ds : List Char) :
    readFrom radix value (cs ++ ds) = readFrom radix value cs >>= (readFrom radix · ds) := by
  induction cs generalizing value with
  | nil =>
      rfl
  | cons c cs ih =>
      rw [List.cons_append, readFrom, readFrom]
      cases radix.digit? c with
      | none =>
          rfl
      | some d =>
          simp only [ih]
          split <;> rfl

theorem value?_digit {n : Nat} (h : n < 16) : Hex.value? (Hex.digit n) = some n := by
  have hall : forall n, n < 16 -> Hex.value? (Hex.digit n) = some n := by decide
  exact hall n h

theorem isHexDigit_digit {n : Nat} (h : n < 16) : Hex.isDigit (Hex.digit n) = true := by
  rw [Hex.isDigit, value?_digit h]
  rfl

theorem hexDigit?_digit {n : Nat} (h : n < 16) : Radix.hex.digit? (Hex.digit n) = some n := by
  simp [Radix.digit?, value?_digit h, Radix.base, h]

/-- Reading two hexadecimal digits after `value`. -/
theorem readFrom_twoDigits {value high low : Nat} (hhigh : high < 16) (hlow : low < 16)
    (hle : value * 256 + high * 16 + low ≤ 65535) (cs : List Char) :
    readFrom .hex value (Hex.digit high :: Hex.digit low :: cs) =
      readFrom .hex (value * 256 + high * 16 + low) cs := by
  have hvalue : (value * 16 + high) * 16 + low = value * 256 + high * 16 + low := by omega
  rw [readFrom_cons (hexDigit?_digit hhigh), readFrom_cons (hexDigit?_digit hlow)]
  · show readFrom .hex ((value * 16 + high) * 16 + low) cs = _
    rw [hvalue]
  · show (value * 16 + high) * 16 + low ≤ 65535
    omega
  · show value * 16 + high ≤ 65535
    omega

theorem read_of_split {lexeme digits : List Char} {radix : Radix} {n : Nat}
    (hsplit : split lexeme = (radix, digits)) (hdigits : digits ≠ [])
    (hread : readFrom radix 0 digits = .ok n) : read lexeme = .ok n.toUInt16 := by
  unfold read
  rw [hsplit]
  split
  · next heq =>
      injection heq with _ hnil
      exact (hdigits hnil).elim
  · next heq =>
      injection heq with hradix heq
      rw [<- hradix, <- heq, hread]
      rfl

theorem read_hex {digits : List Char} {n : Nat} (hdigits : digits ≠ [])
    (hread : readFrom .hex 0 digits = .ok n) : read ('$' :: digits) = .ok n.toUInt16 :=
  read_of_split rfl hdigits hread

theorem read_byte (b : UInt8) : read ('$' :: Hex.byte b) = .ok b.toUInt16 := by
  have hvalue : 0 * 256 + b.toNat / 16 * 16 + b.toNat % 16 = b.toNat := by omega
  have hlt := b.toNat_lt
  have hread : readFrom .hex 0 (Hex.byte b) = .ok b.toNat := by
    rw [Hex.byte, readFrom_twoDigits (by omega) (by omega) (by omega), hvalue, readFrom]
  rw [read_hex (by simp [Hex.byte]) hread]
  exact congrArg Except.ok (UInt16.ofNat_uInt8ToNat b)

theorem read_word (w : UInt16) : read ('$' :: Hex.word w) = .ok w := by
  have hhigh : forall n : Nat, 0 * 256 + n / 4096 * 16 + n / 256 % 16 = n / 256 := by
    intro n
    omega
  have hvalue : forall n : Nat, n / 256 * 256 + n / 16 % 16 * 16 + n % 16 = n := by
    intro n
    omega
  have hle : w.toNat ≤ 65535 := Nat.le_of_lt_succ w.toNat_lt
  have hread : readFrom .hex 0 (Hex.word w) = .ok w.toNat := by
    rw [Hex.word, readFrom_twoDigits (by omega) (by omega) (by rw [hhigh]; omega), hhigh,
      readFrom_twoDigits (by omega) (by omega) (by rw [hvalue]; exact hle), hvalue, readFrom]
  rw [read_hex (by simp [Hex.word]) hread]
  exact congrArg Except.ok UInt16.ofNat_toNat

/-!
Decimal digits are written from the front of the number, so its last digit is taken off
first.
-/

theorem decimal_of_lt {n : Nat} (h : n < 10) : Text.decimal n = [Nat.digitChar n] :=
  Nat.toDigits_of_lt_base h

theorem decimal_of_le {n : Nat} (h : 10 ≤ n) :
    Text.decimal n = Text.decimal (n / 10) ++ [Nat.digitChar (n % 10)] :=
  Nat.toDigits_of_base_le (by decide) h

theorem decimal_ne_nil (n : Nat) : Text.decimal n ≠ [] := by
  by_cases hlt : n < 10
  · rw [decimal_of_lt hlt]
    exact List.cons_ne_nil _ _
  · rw [decimal_of_le (Nat.le_of_not_lt hlt)]
    exact List.append_ne_nil_of_right_ne_nil _ (List.cons_ne_nil _ _)

theorem decimalDigit?_digitChar {d : Nat} (h : d < 10) :
    Radix.decimal.digit? (Nat.digitChar d) = some d := by
  have hall : forall d, d < 10 -> Radix.decimal.digit? (Nat.digitChar d) = some d := by decide
  exact hall d h

theorem isDecimal_digitChar {d : Nat} (h : d < 10) :
    Shape.isDecimal (Nat.digitChar d) = true := by
  have hall : forall d, d < 10 -> Shape.isDecimal (Nat.digitChar d) = true := by decide
  exact hall d h

theorem readFrom_decimal {n : Nat} (h : n ≤ 65535) :
    readFrom .decimal 0 (Text.decimal n) = .ok n := by
  induction n using Nat.strongRecOn with
  | ind n ih =>
      by_cases hlt : n < 10
      · rw [decimal_of_lt hlt, readFrom_cons (decimalDigit?_digitChar hlt)]
        · show readFrom .decimal (0 * 10 + n) [] = _
          rw [Nat.zero_mul, Nat.zero_add]
          rfl
        · show 0 * 10 + n ≤ 65535
          omega
      · have hsplit : n / 10 * 10 + n % 10 = n := by omega
        rw [decimal_of_le (by omega), readFrom_append, ih (n / 10) (by omega) (by omega)]
        show readFrom .decimal (n / 10) [Nat.digitChar (n % 10)] = _
        rw [readFrom_cons (decimalDigit?_digitChar (by omega))]
        · show readFrom .decimal (n / 10 * 10 + n % 10) [] = _
          rw [hsplit]
          rfl
        · show n / 10 * 10 + n % 10 ≤ 65535
          omega

theorem isDecimal_of_mem_decimal {n : Nat} {c : Char} (h : c ∈ Text.decimal n) :
    Shape.isDecimal c = true := by
  induction n using Nat.strongRecOn with
  | ind n ih =>
      by_cases hlt : n < 10
      · rw [decimal_of_lt hlt, List.mem_singleton] at h
        rw [h]
        exact isDecimal_digitChar hlt
      · rw [decimal_of_le (by omega), List.mem_append, List.mem_singleton] at h
        rcases h with hfront | hlast
        · exact ih (n / 10) (by omega) hfront
        · rw [hlast]
          exact isDecimal_digitChar (by omega)

/-- Only the number zero begins with the digit zero. -/
theorem head_decimal {n : Nat} (h : 0 < n) :
    exists c cs, Text.decimal n = c :: cs ∧ c ≠ '0' := by
  induction n using Nat.strongRecOn with
  | ind n ih =>
      by_cases hlt : n < 10
      · refine ⟨Nat.digitChar n, [], decimal_of_lt hlt, ?_⟩
        have hall : forall d, d < 10 -> 0 < d -> Nat.digitChar d ≠ '0' := by decide
        exact hall n hlt h
      · rcases ih (n / 10) (by omega) (by omega) with ⟨c, cs, hfront, hc⟩
        refine ⟨c, cs ++ [Nat.digitChar (n % 10)], ?_, hc⟩
        rw [decimal_of_le (by omega), hfront, List.cons_append]

/-- A decimal numeral has no leading zero, so it is not taken for an octal one. -/
theorem split_decimal (n : Nat) : split (Text.decimal n) = (.decimal, Text.decimal n) := by
  cases Nat.eq_zero_or_pos n with
  | inl hzero =>
      rw [hzero]
      rfl
  | inr hpos =>
      rcases head_decimal hpos with ⟨c, cs, hdecimal, hc⟩
      have hdigit : Shape.isDecimal c = true := by
        apply isDecimal_of_mem_decimal (n := n)
        rw [hdecimal]
        exact List.mem_cons_self
      rw [hdecimal]
      unfold split
      split
      · next heq =>
          cases heq
          cases hdigit
      · next heq =>
          cases heq
          cases hdigit
      · next heq =>
          cases heq
          exact (hc rfl).elim
      · rfl

theorem read_decimal (n : UInt16) : read (Text.decimal n.toNat) = .ok n := by
  have hread := readFrom_decimal (Nat.le_of_lt_succ n.toNat_lt)
  rw [read_of_split (split_decimal n.toNat) (decimal_ne_nil n.toNat) hread]
  exact congrArg Except.ok UInt16.ofNat_toNat

end Numeral

namespace Token

theorem spells_byte (b : UInt8) : Spells (Hex.byteText b).toList [.number b.toUInt16] := by
  have hlt := b.toNat_lt
  rw [Hex.byteText, String.toList_ofList]
  apply spells_number rfl _ (Numeral.read_byte b)
  simp only [Hex.byte, List.forall_mem_cons, List.not_mem_nil, false_implies, implies_true,
    and_true]
  exact ⟨Numeral.isHexDigit_digit (by omega), Numeral.isHexDigit_digit (by omega)⟩

theorem spells_word (w : UInt16) : Spells (Hex.wordText w).toList [.number w] := by
  have hlt := w.toNat_lt
  rw [Hex.wordText, String.toList_ofList]
  apply spells_number rfl _ (Numeral.read_word w)
  simp only [Hex.word, List.forall_mem_cons, List.not_mem_nil, false_implies, implies_true,
    and_true]
  exact ⟨Numeral.isHexDigit_digit (by omega), Numeral.isHexDigit_digit (by omega),
    Numeral.isHexDigit_digit (by omega), Numeral.isHexDigit_digit (by omega)⟩

theorem spells_decimal (n : UInt16) : Spells (Text.decimal n.toNat) [.number n] := by
  have hread := Numeral.read_decimal n
  have hdigits : forall d, d ∈ Text.decimal n.toNat -> Shape.isDecimal d = true :=
    fun d hd => Numeral.isDecimal_of_mem_decimal hd
  cases hdecimal : Text.decimal n.toNat with
  | nil =>
      exact (Numeral.decimal_ne_nil n.toNat hdecimal).elim
  | cons c body =>
      rw [hdecimal, List.forall_mem_cons] at hdigits
      rw [hdecimal] at hread
      apply spells_number (Shape.ofFirst?_of_isDecimal hdigits.left) _ hread
      intro d hd
      exact Shape.isHexDigit_iff.mpr (Or.inl (hdigits.right d hd))

theorem isLabelName_of_token {c : Char} {shape : Shape} {body : List Char} {name : String}
    (hfirst : Shape.ofFirst? c = some shape)
    (hbody : forall d, d ∈ body -> shape.continues d = true)
    (htoken : shape.token c body = .ok (.label name)) : IsLabelName name := by
  cases shape with
  | mark t =>
      injection htoken with ht
      subst ht
      unfold Shape.ofFirst? at hfirst
      split at hfirst
      case h_9 =>
        split at hfirst
        · cases hfirst
        · split at hfirst <;> cases hfirst
      all_goals cases hfirst
  | number =>
      rcases map_eq_ok_iff.mp htoken with ⟨n, _, hn⟩
      cases hn
  | directive =>
      cases htoken
  | name =>
      injection htoken with hname
      unfold ofName at hname
      split at hname
      · cases hname
      · next hnone =>
          injection hname with hname
          rw [<- hname]
          constructor
          · rw [String.toList_ofList]
            exact isName_iff.mpr ⟨c, body, rfl, Shape.isLetter_of_ofFirst?_name hfirst, hbody⟩
          · exact hnone

/-- The labels in a line that was scanned have names that are read as labels again. -/
theorem isLabelName_of_scan {line column : Nat} {cs : List Char} {ts : List Token}
    (h : scan line column cs = .ok ts) :
    forall name, .label name ∈ ts -> IsLabelName name := by
  apply scan_induction (motive := fun _ ts => forall name, .label name ∈ ts -> IsLabelName name)
    _ _ _ h
  · intro name hname
    cases hname
  · intro c cs ts hspace ih
    exact ih
  · intro c shape body rest t ts hfirst hbody hrest htoken ih name hname
    rcases List.mem_cons.mp hname with hhead | htail
    · rw [<- hhead] at htoken
      exact isLabelName_of_token hfirst hbody htoken
    · exact ih name htail

end Token
end Asm65
