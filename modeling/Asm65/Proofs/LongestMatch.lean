import Asm65.Proofs.Numerals
import Asm65.Proofs.Spacing
import Mathlib.Data.List.Forall2

/-!
# Longest match

A line is cut into lexemes and the spaces between them.  If no lexeme can be extended by the
character behind it, then there is at most one cut.  The scan reads the tokens of this cut, and
where there is none it fails at the first place at which cutting cannot go on.
-/

namespace Asm65

/-!
# Classes of lexemes
-/

namespace Lexeme

open Numeral (IsNumeral)
open Token (IsName)

/-- The characters that are lexemes on their own. -/
def marks : List (Char × Token) :=
  [('#', .hash), (',', .comma), (':', .colon), ('(', .lparen), (')', .rparen)]

/-- A directive: a period, then letters, digits and underscores. -/
def IsDirective (cs : List Char) : Prop :=
  exists body, cs = '.' :: body ∧ forall d, d ∈ body -> d ∈ wordChars

inductive IsLexeme : List Char -> Prop where
  | mark {c : Char} {t : Token} : (c, t) ∈ marks -> IsLexeme [c]
  | numeral {cs : List Char} : IsNumeral cs -> IsLexeme cs
  | directive {cs : List Char} : IsDirective cs -> IsLexeme cs
  | name {cs : List Char} : IsName cs -> IsLexeme cs

/-- The token that a lexeme stands for. -/
inductive Denotes : List Char -> Token -> Prop where
  | mark {c : Char} {t : Token} : (c, t) ∈ marks -> Denotes [c] t
  | numeral {cs : List Char} {n : UInt16} :
      IsNumeral cs -> Numeral.read cs = .ok n -> Denotes cs (.number n)
  | directive {name : String} :
      IsDirective ('.' :: name.toList) -> Denotes ('.' :: name.toList) (.directive name)
  | mnemonic (m : Mnemonic) : Denotes m.name.toList (.mnemonic m)
  | label {name : String} :
      IsName name.toList -> (forall m : Mnemonic, m.name ≠ name) ->
        Denotes name.toList (.label name)

/-!
The first character of a lexeme decides its class, so the classes are the shapes that the scan
goes by.
-/

theorem ofFirst?_of_mark {c : Char} {t : Token} (h : (c, t) ∈ marks) :
    Shape.ofFirst? c = some (.mark t) := by
  simp only [marks, List.mem_cons, Prod.mk.injEq, List.not_mem_nil, or_false] at h
  rcases h with ⟨rfl, rfl⟩ | ⟨rfl, rfl⟩ | ⟨rfl, rfl⟩ | ⟨rfl, rfl⟩ | ⟨rfl, rfl⟩ <;> rfl

theorem ofFirst?_of_numeral {c : Char} (h : c ∈ decimalChars ∨ c = '%' ∨ c = '$') :
    Shape.ofFirst? c = some .number := by
  rcases h with hdecimal | rfl | rfl
  · exact Shape.ofFirst?_of_isDecimal (Shape.isDecimal_iff_mem.mpr hdecimal)
  · rfl
  · rfl

/-- What the first character of a lexeme can be. -/
inductive Begins (c : Char) : Shape -> Prop where
  | mark {t : Token} : (c, t) ∈ marks -> Begins c (.mark t)
  | number : c ∈ decimalChars ∨ c = '%' ∨ c = '$' -> Begins c .number
  | directive : c = '.' -> Begins c .directive
  | name : c ∈ letterChars -> Begins c .name

theorem begins_of_ofFirst? {c : Char} {shape : Shape} (h : Shape.ofFirst? c = some shape) :
    Begins c shape := by
  unfold Shape.ofFirst? at h
  split at h
  case h_6 =>
    cases h
    exact .directive rfl
  case h_7 =>
    cases h
    exact .number (Or.inr (Or.inl rfl))
  case h_8 =>
    cases h
    exact .number (Or.inr (Or.inr rfl))
  case h_9 =>
    split at h
    · next hdecimal =>
        cases h
        exact .number (Or.inl (Shape.isDecimal_iff_mem.mp hdecimal))
    · split at h
      · next hletter =>
          cases h
          exact .name (Shape.isLetter_iff_mem.mp hletter)
      · cases h
  all_goals
    cases h
    exact .mark (by simp [marks])

theorem isNumeral_cons_iff {c : Char} {body : List Char} :
    IsNumeral (c :: body) <->
      Shape.ofFirst? c = some .number ∧ forall d, d ∈ body -> Hex.isDigit d = true := by
  simp only [Numeral.isNumeral_cons, Numeral.isHexDigit_iff_mem]
  constructor
  · intro h
    exact ⟨ofFirst?_of_numeral h.left, h.right⟩
  · intro h
    cases begins_of_ofFirst? h.left with
    | number hfirst => exact ⟨hfirst, h.right⟩

theorem isDirective_cons_iff {c : Char} {body : List Char} :
    IsDirective (c :: body) <->
      Shape.ofFirst? c = some .directive ∧ forall d, d ∈ body -> Shape.isWordChar d = true := by
  simp only [Shape.isWordChar_iff_mem]
  constructor
  · intro h
    rcases h with ⟨_, heq, hbody⟩
    cases heq
    exact ⟨rfl, hbody⟩
  · intro h
    cases begins_of_ofFirst? h.left with
    | directive hperiod => exact ⟨body, by rw [hperiod], h.right⟩

theorem isName_cons_iff {c : Char} {body : List Char} :
    IsName (c :: body) <->
      Shape.ofFirst? c = some .name ∧ forall d, d ∈ body -> Shape.isWordChar d = true := by
  rw [Token.isName_iff]
  constructor
  · intro h
    rcases h with ⟨_, _, heq, hletter, hbody⟩
    cases heq
    exact ⟨Shape.ofFirst?_of_isLetter hletter, hbody⟩
  · intro h
    exact ⟨c, body, rfl, Shape.isLetter_of_ofFirst?_name h.left, h.right⟩

/-- A lexeme is a character that begins one, with characters that continue it. -/
theorem isLexeme_cons_iff {c : Char} {body : List Char} :
    IsLexeme (c :: body) <->
      exists shape, Shape.ofFirst? c = some shape ∧
        forall d, d ∈ body -> shape.continues d = true := by
  constructor
  · intro h
    generalize hcs : c :: body = cs at h
    cases h with
    | mark hmark =>
        cases hcs
        exact ⟨_, ofFirst?_of_mark hmark, fun d hd => (List.not_mem_nil hd).elim⟩
    | numeral hnumeral =>
        rw [<- hcs, isNumeral_cons_iff] at hnumeral
        exact ⟨.number, hnumeral⟩
    | directive hdirective =>
        rw [<- hcs, isDirective_cons_iff] at hdirective
        exact ⟨.directive, hdirective⟩
    | name hname =>
        rw [<- hcs, isName_cons_iff] at hname
        exact ⟨.name, hname⟩
  · intro h
    rcases h with ⟨shape, hfirst, hbody⟩
    cases begins_of_ofFirst? hfirst with
    | mark hmark =>
        cases body with
        | nil => exact .mark hmark
        | cons d body => cases hbody d List.mem_cons_self
    | number _ => exact .numeral (isNumeral_cons_iff.mpr ⟨hfirst, hbody⟩)
    | directive _ => exact .directive (isDirective_cons_iff.mpr ⟨hfirst, hbody⟩)
    | name _ => exact .name (isName_cons_iff.mpr ⟨hfirst, hbody⟩)

theorem exists_cons_of_isLexeme {cs : List Char} (h : IsLexeme cs) :
    exists c body, cs = c :: body ∧ c ∉ spaceChars := by
  cases cs with
  | nil =>
      generalize hcs : ([] : List Char) = cs at h
      cases h with
      | mark _ => cases hcs
      | numeral hnumeral => rcases hnumeral with ⟨_, _, rfl, _⟩; cases hcs
      | directive hdirective => rcases hdirective with ⟨_, rfl, _⟩; cases hcs
      | name hname => rcases hname with ⟨_, _, rfl, _⟩; cases hcs
  | cons c body =>
      rcases isLexeme_cons_iff.mp h with ⟨shape, hfirst, _⟩
      exact ⟨c, body, rfl, Shape.isSpace_eq_false_iff.mp (Shape.isSpace_of_ofFirst? hfirst)⟩

/-- What is left of a lexeme without some of its last characters is a lexeme. -/
theorem isLexeme_of_append {cs ds : List Char} (hne : cs ≠ []) (h : IsLexeme (cs ++ ds)) :
    IsLexeme cs := by
  cases cs with
  | nil => exact (hne rfl).elim
  | cons c body =>
      rw [List.cons_append, isLexeme_cons_iff] at h
      rcases h with ⟨shape, hfirst, hbody⟩
      exact isLexeme_cons_iff.mpr
        ⟨shape, hfirst, fun d hd => hbody d (List.mem_append_left ds hd)⟩

theorem ascii_of_isLexeme {cs : List Char} (h : IsLexeme cs) {c : Char} (hc : c ∈ cs) :
    c.toNat < 128 := by
  rcases exists_cons_of_isLexeme h with ⟨first, body, rfl, _⟩
  rcases isLexeme_cons_iff.mp h with ⟨shape, hfirst, hbody⟩
  have hplain : Shape.IsPlain c := by
    rcases List.mem_cons.mp hc with rfl | hmem
    · exact Shape.isPlain_of_ofFirst? hfirst
    · exact Shape.isPlain_of_isWordChar (Shape.isWordChar_of_continues (hbody c hmem))
  exact Nat.lt_of_le_of_lt hplain.right.left (by decide)

/-!
# Tokens of lexemes
-/

theorem upper_of_isName {cs : List Char} (h : IsName cs) :
    Text.upper (String.ofList cs) = String.ofList cs := by
  rcases Token.isName_iff.mp h with ⟨c, body, rfl, hletter, hbody⟩
  have hplain : forall d, d ∈ c :: body -> Shape.IsPlain d :=
    List.forall_mem_cons.mpr ⟨Shape.isPlain_of_isLetter hletter,
      fun d hd => Shape.isPlain_of_isWordChar (hbody d hd)⟩
  have hsame : forall d, d ∈ c :: body -> d.toUpper = d := by
    intro d hd
    unfold Char.toUpper
    rw [dif_neg]
    intro hlower
    have hlow : 97 ≤ d.toNat := hlower.left
    have hhigh := (hplain d hd).right.left
    omega
  rw [Text.upper, String.toList_ofList, Text.upperChars, List.map_congr_left hsame, List.map_id']

theorem ofName?_eq_some_iff {cs : List Char} (h : IsName cs) {m : Mnemonic} :
    Mnemonic.ofName? (String.ofList cs) = some m <-> m.name = String.ofList cs := by
  constructor
  · intro hfound
    have hname := List.find?_some hfound
    rw [upper_of_isName h] at hname
    exact eq_of_beq hname
  · intro hname
    rw [<- hname]
    exact Token.ofName?_name m

theorem denotes_ofName {cs : List Char} (h : IsName cs) :
    Denotes cs (Token.ofName (String.ofList cs)) := by
  unfold Token.ofName
  split
  · next m hfound =>
      have hmnemonic := Denotes.mnemonic m
      rwa [(ofName?_eq_some_iff h).mp hfound, String.toList_ofList] at hmnemonic
  · next hnone =>
      have hlabel := @Denotes.label (String.ofList cs) (by rwa [String.toList_ofList])
        (fun m hm => by rw [(ofName?_eq_some_iff h).mpr hm] at hnone; cases hnone)
      rwa [String.toList_ofList] at hlabel

theorem denotes_of_token {c : Char} {shape : Shape} {body : List Char} {t : Token}
    (hfirst : Shape.ofFirst? c = some shape)
    (hbody : forall d, d ∈ body -> shape.continues d = true)
    (htoken : shape.token c body = .ok t) : Denotes (c :: body) t := by
  cases begins_of_ofFirst? hfirst with
  | mark hmark =>
      cases htoken
      cases body with
      | nil => exact .mark hmark
      | cons d body => cases hbody d List.mem_cons_self
  | number _ =>
      rcases map_eq_ok_iff.mp htoken with ⟨n, hread, rfl⟩
      exact .numeral (isNumeral_cons_iff.mpr ⟨hfirst, hbody⟩) hread
  | directive hperiod =>
      cases htoken
      have hname : (String.ofList body).toList = body := String.toList_ofList
      have hperiodFirst := isDirective_cons_iff.mpr ⟨hfirst, hbody⟩
      rw [hperiod, <- hname] at hperiodFirst
      have hdirective := Denotes.directive hperiodFirst
      rwa [hname, <- hperiod] at hdirective
  | name _ =>
      cases htoken
      exact denotes_ofName (isName_cons_iff.mpr ⟨hfirst, hbody⟩)

/-- A lexeme stands for one token only. -/
theorem token_of_denotes {c : Char} {shape : Shape} {body : List Char} {t : Token}
    (hfirst : Shape.ofFirst? c = some shape) (h : Denotes (c :: body) t) :
    shape.token c body = .ok t := by
  generalize hcs : c :: body = cs at h
  cases h with
  | mark hmark =>
      cases hcs
      rw [ofFirst?_of_mark hmark] at hfirst
      cases hfirst
      rfl
  | numeral hnumeral hread =>
      rw [<- hcs] at hnumeral hread
      rw [(isNumeral_cons_iff.mp hnumeral).left] at hfirst
      cases hfirst
      rw [Shape.token, hread]
      rfl
  | directive hdirective =>
      cases hcs
      cases hfirst
      rw [Shape.token, String.ofList_toList]
  | mnemonic m =>
      have hname := Token.isName_mnemonic m
      rw [<- hcs, isName_cons_iff, hfirst] at hname
      cases hname.left
      rw [Shape.token, hcs, String.ofList_toList, Token.ofName, Token.ofName?_name]
  | @label name hisName hreserved =>
      have hnone : Mnemonic.ofName? (String.ofList name.toList) = none := by
        cases hfound : Mnemonic.ofName? (String.ofList name.toList) with
        | none => rfl
        | some m =>
            have hname := (ofName?_eq_some_iff hisName).mp hfound
            rw [String.ofList_toList] at hname
            exact (hreserved m hname).elim
      rw [<- hcs, isName_cons_iff, hfirst] at hisName
      cases hisName.left
      rw [Shape.token, hcs, Token.ofName, hnone, String.ofList_toList]

theorem exists_denotes {cs : List Char} (h : IsLexeme cs)
    (hread : IsNumeral cs -> exists n, Numeral.read cs = .ok n) : exists t, Denotes cs t := by
  cases h with
  | mark hmark => exact ⟨_, .mark hmark⟩
  | numeral hnumeral =>
      rcases hread hnumeral with ⟨n, hn⟩
      exact ⟨_, .numeral hnumeral hn⟩
  | directive hdirective =>
      rcases exists_cons_of_isLexeme (.directive hdirective) with ⟨c, body, rfl, _⟩
      rcases isDirective_cons_iff.mp hdirective with ⟨hfirst, hbody⟩
      exact ⟨_, denotes_of_token hfirst hbody rfl⟩
  | name hname => exact ⟨_, denotes_ofName hname⟩

end Lexeme

/-!
# Cuts
-/

open Lexeme
open Numeral (IsNumeral)

/-- A run of spaces, which may be empty, and the lexeme behind it. -/
structure Chunk where
  gap : List Char
  lexeme : List Char

/-- The lexemes of a text with the spaces before each of them, and the spaces at the end. -/
structure Cut where
  chunks : List Chunk
  tail : List Char

namespace Cut

def chars (s : Cut) : List Char :=
  s.chunks.flatMap (fun k => k.gap ++ k.lexeme) ++ s.tail

def lexemes (s : Cut) : List (List Char) :=
  s.chunks.map Chunk.lexeme

def push (gap lexeme : List Char) (s : Cut) : Cut :=
  ⟨⟨gap, lexeme⟩ :: s.chunks, s.tail⟩

theorem chars_push (gap lexeme : List Char) (s : Cut) :
    (s.push gap lexeme).chars = gap ++ (lexeme ++ s.chars) := by
  simp [chars, push, List.append_assoc]

/--
The text is cut as far as `rest`.  No lexeme can be extended by the character behind it, and
every numeral among the lexemes can be read.
-/
inductive Cuts (rest : List Char) : List Char -> Cut -> Prop where
  | tail {gap : List Char} :
      (forall c, c ∈ gap -> c ∈ spaceChars) -> Cuts rest (gap ++ rest) ⟨[], gap⟩
  | push {gap lexeme text : List Char} {s : Cut} :
      (forall c, c ∈ gap -> c ∈ spaceChars) -> IsLexeme lexeme ->
        (forall d, text.head? = some d -> ¬ IsLexeme (lexeme ++ [d])) ->
        (IsNumeral lexeme -> exists n, Numeral.read lexeme = .ok n) ->
        Cuts rest text s -> Cuts rest (gap ++ (lexeme ++ text)) (s.push gap lexeme)

namespace Cuts

variable {text rest : List Char} {s s' : Cut}

theorem eq_append (h : Cuts rest text s) : text = s.chars ++ rest := by
  induction h with
  | tail _ => rfl
  | push _ _ _ _ _ ih => rw [chars_push, ih, List.append_assoc, List.append_assoc]

/-- What has been cut is a text of its own. -/
theorem alone (h : Cuts rest text s) : Cuts [] s.chars s := by
  induction h with
  | @tail gap hgap =>
      have htail := @Cuts.tail [] gap hgap
      rwa [List.append_nil] at htail
  | push hgap hlexeme hlongest hread hcut ih =>
      rw [chars_push]
      refine .push hgap hlexeme ?_ hread ih
      intro d hd
      apply hlongest d
      rw [hcut.eq_append, List.head?_append, hd]
      rfl

theorem ascii (h : Cuts rest text s) {c : Char} (hc : c ∈ s.chars) : c.toNat < 128 := by
  have hall : spaceChars.all (fun c => decide (c.toNat < 128)) = true := by decide
  have hspace {c : Char} (h : c ∈ spaceChars) : c.toNat < 128 :=
    of_decide_eq_true (List.all_eq_true.mp hall c h)
  induction h with
  | tail hgap => exact hspace (hgap c hc)
  | push hgap hlexeme _ _ _ ih =>
      rw [chars_push, List.mem_append, List.mem_append] at hc
      rcases hc with hmem | hmem | hmem
      · exact hspace (hgap c hmem)
      · exact ascii_of_isLexeme hlexeme hmem
      · exact ih hmem

theorem exists_tokens (h : Cuts rest text s) : exists ts, List.Forall₂ Denotes s.lexemes ts := by
  induction h with
  | tail _ => exact ⟨[], List.Forall₂.nil⟩
  | push _ hlexeme _ hread _ ih =>
      rcases exists_denotes hlexeme hread with ⟨t, ht⟩
      rcases ih with ⟨ts, hts⟩
      exact ⟨t :: ts, List.Forall₂.cons ht hts⟩

end Cuts

/-!
# One cut at most
-/

theorem areSpaces_iff {gap : List Char} :
    (forall c, c ∈ gap -> Token.isSpace c = true) <-> forall c, c ∈ gap -> c ∈ spaceChars := by
  simp only [Shape.isSpace_iff_mem]

/-- Spaces in front of another character end there. -/
theorem gap_unique {gap gap' cs cs' : List Char} {c c' : Char}
    (hgap : forall d, d ∈ gap -> d ∈ spaceChars) (hc : c ∉ spaceChars)
    (hgap' : forall d, d ∈ gap' -> d ∈ spaceChars) (hc' : c' ∉ spaceChars)
    (h : gap ++ c :: cs = gap' ++ c' :: cs') : gap = gap' ∧ c :: cs = c' :: cs' := by
  rw [<- areSpaces_iff] at hgap hgap'
  rw [<- Shape.isSpace_eq_false_iff] at hc hc'
  have htake := congrArg (List.takeWhile Token.isSpace) h
  rw [List.takeWhile_append_of_pos hgap, List.takeWhile_append_of_pos hgap',
    List.takeWhile_cons_of_neg (by rw [hc]; exact Bool.false_ne_true),
    List.takeWhile_cons_of_neg (by rw [hc']; exact Bool.false_ne_true),
    List.append_nil, List.append_nil] at htake
  rw [htake] at h
  exact ⟨htake, List.append_cancel_left h⟩

theorem lexeme_prefix {l l' text text' : List Char} (h' : IsLexeme l')
    (hlongest : forall d, text.head? = some d -> ¬ IsLexeme (l ++ [d])) {ds : List Char}
    (hl' : l' = l ++ ds) (htext : text = ds ++ text') : ds = [] := by
  cases ds with
  | nil => rfl
  | cons d ds =>
      rw [hl', List.append_cons] at h'
      rw [htext] at hlongest
      exact (hlongest d rfl (isLexeme_of_append (by simp) h')).elim

/-- Of two lexemes at the same place, one that cannot be extended is the longer one. -/
theorem lexeme_unique {l l' text text' : List Char} (h : IsLexeme l) (h' : IsLexeme l')
    (hlongest : forall d, text.head? = some d -> ¬ IsLexeme (l ++ [d]))
    (hlongest' : forall d, text'.head? = some d -> ¬ IsLexeme (l' ++ [d]))
    (heq : l ++ text = l' ++ text') : l = l' ∧ text = text' := by
  rcases List.append_eq_append_iff.mp heq with ⟨ds, hl, htext⟩ | ⟨ds, hl, htext⟩
  · have hnil := lexeme_prefix h' hlongest hl htext
    rw [hnil, List.append_nil] at hl
    rw [hnil, List.nil_append] at htext
    exact ⟨hl.symm, htext⟩
  · have hnil := lexeme_prefix h hlongest' hl htext
    rw [hnil, List.append_nil] at hl
    rw [hnil, List.nil_append] at htext
    exact ⟨hl, htext.symm⟩

theorem not_spaces {gap lexeme text tail : List Char} (hlexeme : IsLexeme lexeme)
    (htail : forall c, c ∈ tail -> c ∈ spaceChars)
    (h : gap ++ (lexeme ++ text) = tail) : False := by
  rcases exists_cons_of_isLexeme hlexeme with ⟨c, body, rfl, hc⟩
  have hmem : c ∈ tail := by
    rw [<- h]
    simp
  exact hc (htail c hmem)

theorem Cuts.unique {text : List Char} {s s' : Cut} (h : Cuts [] text s)
    (h' : Cuts [] text s') : s = s' := by
  induction h generalizing s' with
  | @tail gap hgap =>
      rw [List.append_nil] at h'
      cases h' with
      | tail _ => rw [List.append_nil]
      | push _ hlexeme _ _ _ => exact (not_spaces hlexeme hgap rfl).elim
  | @push gap lexeme text s hgap hlexeme hlongest hread hcut ih =>
      generalize htext : gap ++ (lexeme ++ text) = whole at h'
      cases h' with
      | tail hgap' =>
          rw [List.append_nil] at htext
          exact (not_spaces hlexeme hgap' htext).elim
      | @push gap' lexeme' text' s' hgap' hlexeme' hlongest' hread' hcut' =>
          rcases exists_cons_of_isLexeme hlexeme with ⟨c, body, hl, hc⟩
          rcases exists_cons_of_isLexeme hlexeme' with ⟨c', body', hl', hc'⟩
          have hgaps : gap = gap' ∧ lexeme ++ text = lexeme' ++ text' := by
            rw [hl, hl'] at htext ⊢
            exact gap_unique hgap hc hgap' hc' htext
          rcases lexeme_unique hlexeme hlexeme' hlongest hlongest' hgaps.right with
            ⟨rfl, rfl⟩
          rw [hgaps.left, ih hcut']

/-!
# The scan of a cut
-/

/-- Here cutting cannot go on: a numeral is wrong, or a character begins no lexeme. -/
inductive Stuck : List Char -> LexError.Kind -> Prop where
  | numeral {lexeme after : List Char} {kind : LexError.Kind} :
      IsNumeral lexeme -> (forall d, after.head? = some d -> ¬ IsLexeme (lexeme ++ [d])) ->
        Numeral.read lexeme = .error kind -> Stuck (lexeme ++ after) kind
  | symbol {c : Char} {after : List Char} :
      c ∉ spaceChars -> (forall body, ¬ IsLexeme (c :: body)) ->
        Stuck (c :: after) .invalidSymbol

/-- A lexeme can be extended by the characters that its shape goes on with. -/
theorem isLexeme_concat_iff {c d : Char} {shape : Shape} {body : List Char}
    (hfirst : Shape.ofFirst? c = some shape)
    (hbody : forall d, d ∈ body -> shape.continues d = true) :
    IsLexeme (c :: body ++ [d]) <-> shape.continues d = true := by
  rw [List.cons_append, isLexeme_cons_iff]
  constructor
  · intro h
    rcases h with ⟨shape', hfirst', hall⟩
    rw [hfirst] at hfirst'
    cases hfirst'
    exact hall d (List.mem_append_right body (List.mem_singleton_self d))
  · intro hd
    refine ⟨shape, hfirst, List.forall_mem_append.mpr ⟨hbody, ?_⟩⟩
    rwa [List.forall_mem_singleton]

theorem scan_of_cuts {text rest : List Char} {s : Cut} (h : Cuts rest text s) {ts : List Token}
    (hts : List.Forall₂ Denotes s.lexemes ts) (line column : Nat) :
    Token.scan line column text =
      (Token.scan line (column + s.chars.length) rest).map (ts ++ ·) := by
  induction h generalizing ts column with
  | @tail gap hgap =>
      cases hts
      rw [Token.scan_spaces (areSpaces_iff.mpr hgap)]
      exact (congrFun Except.map_id _).symm
  | @push gap lexeme text s hgap hlexeme hlongest hread hcut ih =>
      rcases exists_cons_of_isLexeme hlexeme with ⟨c, body, rfl, _⟩
      rcases isLexeme_cons_iff.mp hlexeme with ⟨shape, hfirst, hbody⟩
      cases hts with
      | @cons _ t _ ts ht hts =>
          have hstop : forall d, text.head? = some d -> shape.continues d = false := by
            intro d hd
            rw [<- Bool.not_eq_true, <- isLexeme_concat_iff hfirst hbody]
            exact hlongest d hd
          have hcolumn : column + gap.length + 1 + body.length + s.chars.length =
              column + (s.push gap (c :: body)).chars.length := by
            rw [chars_push, List.length_append, List.length_append, List.length_cons]
            omega
          rw [Token.scan_spaces (areSpaces_iff.mpr hgap), List.cons_append,
            Token.scan_lexeme hfirst hbody hstop (token_of_denotes hfirst ht), ih hts, hcolumn]
          cases Token.scan line (column + (s.push gap (c :: body)).chars.length) rest with
          | error e => rfl
          | ok us => rfl

theorem scan_of_stuck {rest : List Char} {kind : LexError.Kind} (h : Stuck rest kind)
    (line column : Nat) : Token.scan line column rest = .error ⟨kind, line, column⟩ := by
  cases h with
  | @numeral lexeme after _ hnumeral hlongest hread =>
      rcases exists_cons_of_isLexeme (.numeral hnumeral) with ⟨c, body, rfl, hc⟩
      rcases isNumeral_cons_iff.mp hnumeral with ⟨hfirst, hdigits⟩
      have hbody : forall d, d ∈ body -> Shape.number.continues d = true := hdigits
      have hstop : after.takeWhile Shape.number.continues = [] := by
        cases after with
        | nil => rfl
        | cons d after =>
            apply List.takeWhile_cons_of_neg
            rw [<- isLexeme_concat_iff hfirst hbody]
            exact hlongest d rfl
      have htake : (body ++ after).takeWhile Shape.number.continues = body := by
        rw [List.takeWhile_append_of_pos hbody, hstop, List.append_nil]
      have htoken : Shape.number.token c body = .error kind := map_eq_error_iff.mpr hread
      rw [List.cons_append, Token.scan, Shape.isSpace_eq_false_iff.mpr hc, hfirst]
      simp only [Bool.false_eq_true, if_false, htake, htoken]
  | @symbol c after hc hnone =>
      have hfirst : Shape.ofFirst? c = none := by
        cases hfirst : Shape.ofFirst? c with
        | none => rfl
        | some shape =>
            exact (hnone [] (isLexeme_cons_iff.mpr
              ⟨shape, hfirst, fun d hd => (List.not_mem_nil hd).elim⟩)).elim
      rw [Token.scan, Shape.isSpace_eq_false_iff.mpr hc, hfirst]
      rfl

theorem token_eq_error_iff {shape : Shape} {c : Char} {body : List Char} {kind : LexError.Kind} :
    shape.token c body = .error kind <->
      shape = .number ∧ Numeral.read (c :: body) = .error kind := by
  cases shape with
  | number => simp [Shape.token, map_eq_error_iff]
  | _ => simp [Shape.token]

/-- A text that begins with no space begins with a lexeme, unless cutting cannot go on. -/
theorem exists_lexeme {c : Char} (hc : c ∉ spaceChars) (cs : List Char) :
    (exists kind, Stuck (c :: cs) kind) ∨
      exists lexeme after, c :: cs = lexeme ++ after ∧ IsLexeme lexeme ∧
        (forall d, after.head? = some d -> ¬ IsLexeme (lexeme ++ [d])) ∧
        (IsNumeral lexeme -> exists n, Numeral.read lexeme = .ok n) := by
  cases hfirst : Shape.ofFirst? c with
  | none =>
      refine Or.inl ⟨_, .symbol hc ?_⟩
      intro body h
      rcases isLexeme_cons_iff.mp h with ⟨shape, hshape, _⟩
      rw [hfirst] at hshape
      cases hshape
  | some shape =>
      have hbody : forall d, d ∈ cs.takeWhile shape.continues -> shape.continues d = true :=
        fun d hd => List.mem_takeWhile_imp hd
      have hlongest : forall d, (cs.dropWhile shape.continues).head? = some d ->
          ¬ IsLexeme (c :: cs.takeWhile shape.continues ++ [d]) := by
        intro d hd
        have hstop := List.head?_dropWhile_not shape.continues cs
        rw [hd] at hstop
        rw [isLexeme_concat_iff hfirst hbody, Bool.not_eq_true]
        exact hstop
      have hsplit : c :: cs =
          c :: cs.takeWhile shape.continues ++ cs.dropWhile shape.continues := by
        rw [List.cons_append, List.takeWhile_append_dropWhile]
      cases htoken : shape.token c (cs.takeWhile shape.continues) with
      | error kind =>
          rcases token_eq_error_iff.mp htoken with ⟨rfl, hread⟩
          rw [hsplit]
          exact Or.inl
            ⟨kind, .numeral (isNumeral_cons_iff.mpr ⟨hfirst, hbody⟩) hlongest hread⟩
      | ok t =>
          refine Or.inr ⟨_, _, hsplit, isLexeme_cons_iff.mpr ⟨shape, hfirst, hbody⟩,
            hlongest, ?_⟩
          intro hnumeral
          rw [(isNumeral_cons_iff.mp hnumeral).left] at hfirst
          cases hfirst
          rcases map_eq_ok_iff.mp htoken with ⟨n, hn, _⟩
          exact ⟨n, hn⟩

/-- Every text is cut to its end, or to a place where cutting cannot go on. -/
theorem exists_cuts (text : List Char) :
    exists s rest, Cuts rest text s ∧ (rest = [] ∨ exists kind, Stuck rest kind) := by
  induction hlength : text.length using Nat.strongRecOn generalizing text with
  | ind length ih =>
      have hgap : forall c, c ∈ text.takeWhile Token.isSpace -> c ∈ spaceChars :=
        areSpaces_iff.mp fun c hc => List.mem_takeWhile_imp hc
      have htext := List.takeWhile_append_dropWhile (p := Token.isSpace) (l := text)
      have hhead := List.head?_dropWhile_not Token.isSpace text
      generalize text.takeWhile Token.isSpace = gap at hgap htext
      cases hbehind : text.dropWhile Token.isSpace with
      | nil =>
          rw [hbehind] at htext
          rw [<- htext]
          exact ⟨_, [], .tail hgap, Or.inl rfl⟩
      | cons c cs =>
          rw [hbehind] at hhead htext
          rcases exists_lexeme (Shape.isSpace_eq_false_iff.mp hhead) cs with
            hstuck | ⟨lexeme, after, heq, hlexeme, hrest⟩
          · rw [<- htext]
            exact ⟨_, c :: cs, .tail hgap, Or.inr hstuck⟩
          · have hless : after.length < length := by
              rcases exists_cons_of_isLexeme hlexeme with ⟨d, body, rfl, _⟩
              rw [<- hlength, <- htext, heq, List.length_append, List.length_append,
                List.length_cons]
              omega
            rcases ih after.length hless after rfl with ⟨s, rest, hcut, hend⟩
            rw [<- htext, heq]
            exact ⟨_, rest, .push hgap hlexeme hrest.left hrest.right hcut, hend⟩

/-- The scan reads the tokens of the cut of its text, if the text is cut to the end. -/
theorem scan_eq_ok_iff {line column : Nat} {text : List Char} {ts : List Token} :
    Token.scan line column text = .ok ts <->
      exists s, Cuts [] text s ∧ List.Forall₂ Denotes s.lexemes ts := by
  constructor
  · intro h
    rcases exists_cuts text with ⟨s, rest, hcut, hend⟩
    rcases hcut.exists_tokens with ⟨us, hus⟩
    rw [scan_of_cuts hcut hus] at h
    rcases hend with rfl | ⟨kind, hstuck⟩
    · rw [Token.scans_nil] at h
      have hts : us ++ [] = ts := Except.ok.inj h
      rw [List.append_nil] at hts
      exact ⟨s, hcut, hts ▸ hus⟩
    · rw [scan_of_stuck hstuck] at h
      cases h
  · intro h
    rcases h with ⟨s, hcut, hts⟩
    rw [scan_of_cuts hcut hts, Token.scans_nil]
    exact congrArg Except.ok (List.append_nil ts)

/-- The scan fails where cutting its text cannot go on. -/
theorem scan_eq_error_iff {line column : Nat} {text : List Char} {e : LexError} :
    Token.scan line column text = .error e <->
      exists s rest, Cuts rest text s ∧ Stuck rest e.kind ∧ e.line = line ∧
        e.column = column + s.chars.length := by
  constructor
  · intro h
    rcases exists_cuts text with ⟨s, rest, hcut, hend⟩
    rcases hcut.exists_tokens with ⟨us, hus⟩
    rw [scan_of_cuts hcut hus] at h
    rcases hend with rfl | ⟨kind, hstuck⟩
    · rw [Token.scans_nil] at h
      cases h
    · rw [scan_of_stuck hstuck] at h
      cases h
      exact ⟨s, rest, hcut, hstuck, rfl, rfl⟩
  · intro h
    rcases h with ⟨s, rest, hcut, hstuck, hline, hcolumn⟩
    rcases hcut.exists_tokens with ⟨us, hus⟩
    rw [scan_of_cuts hcut hus, scan_of_stuck hstuck, <- hline, <- hcolumn]
    rfl

end Cut

/-!
# Lines
-/

theorem Text.utf8ByteSize_of_ascii {cs : List Char} (h : forall c, c ∈ cs -> c.toNat < 128) :
    (String.ofList cs).utf8ByteSize = cs.length := by
  induction cs with
  | nil => rfl
  | cons c cs ih =>
      rw [List.forall_mem_cons] at h
      have hsize : c.utf8Size = 1 := Char.utf8Size_eq_one_iff.mpr (Nat.le_of_lt_succ h.left)
      rw [String.ofList_cons, String.utf8ByteSize_append, String.utf8ByteSize_singleton, hsize,
        ih h.right, List.length_cons, Nat.add_comm]

/-- Numerals fail for what is wrong with their digits, and so not for a character. -/
theorem Numeral.read_ne_invalidSymbol {lexeme : List Char} (h : IsNumeral lexeme) :
    read lexeme ≠ .error .invalidSymbol := by
  intro hread
  rcases h with ⟨c, body, rfl, _⟩
  rcases exists_written (List.cons_ne_nil c body) with ⟨base, invalid, digits, hwritten⟩
  rcases (read_eq_error_iff hwritten).mp hread with ⟨_, hkind⟩ | ⟨i, d, _, _, hkind⟩
  · cases hkind
  · have hfault := faultOf_mem hwritten d
    rw [<- hkind] at hfault
    exact absurd hfault (by decide)

theorem Cut.Stuck.kind_eq_invalidSymbol_iff {rest : List Char} {kind : LexError.Kind}
    (h : Stuck rest kind) :
    kind = .invalidSymbol <->
      exists c after, rest = c :: after ∧ forall body, ¬ IsLexeme (c :: body) := by
  cases h with
  | @numeral lexeme after _ hnumeral hlongest hread =>
      refine iff_of_false ?_ ?_
      · rintro rfl
        exact Numeral.read_ne_invalidSymbol hnumeral hread
      · rintro ⟨c, after', heq, hnone⟩
        rcases hnumeral with ⟨d, body, rfl, hdigits⟩
        cases heq
        exact hnone body (.numeral ⟨c, body, rfl, hdigits⟩)
  | @symbol c after _ hnone => exact iff_of_true rfl ⟨c, after, rfl, hnone⟩

/--
The failure is at the first place of the text where cutting cannot go on, behind `before` and in
front of `rest`.  There is a character that begins no lexeme, or else a numeral that is wrong.
-/
structure LexError.IsFirst (text before rest : String) (e : LexError) : Prop where
  whole : text = before ++ rest
  offset : e.column = before.utf8ByteSize
  position : e.column = before.length
  ascii : forall c, c ∈ before.toList -> c.toNat < 128
  cut : exists s, Cut.Cuts rest.toList text.toList s
  alone : exists l, TokenLine.ofText e.line before = .ok l
  stuck : Cut.Stuck rest.toList e.kind
  symbol : e.kind = .invalidSymbol <->
    exists c after, rest.toList = c :: after ∧ forall body, ¬ IsLexeme (c :: body)

namespace TokenLine

open Cut

theorem ofText_eq_ok_iff_cuts {number : Nat} {text : String} {l : TokenLine} :
    ofText number text = .ok l <->
      l.number = number ∧
        exists s, Cuts [] text.toList s ∧ List.Forall₂ Denotes s.lexemes l.tokens := by
  rcases l with ⟨k, ts⟩
  unfold ofText
  rw [map_eq_ok_iff]
  constructor
  · intro h
    rcases h with ⟨us, hus, heq⟩
    cases heq
    exact ⟨rfl, scan_eq_ok_iff.mp hus⟩
  · intro h
    rcases h with ⟨rfl, hts⟩
    exact ⟨ts, scan_eq_ok_iff.mpr hts, rfl⟩

theorem ofText_eq_error_iff {number : Nat} {text : String} {e : LexError} :
    ofText number text = .error e <->
      e.line = number ∧ exists before rest, e.IsFirst text before rest := by
  unfold ofText
  rw [map_eq_error_iff, scan_eq_error_iff]
  constructor
  · intro h
    rcases h with ⟨s, rest, hcut, hstuck, hline, hcolumn⟩
    rw [Nat.zero_add] at hcolumn
    rcases hcut.exists_tokens with ⟨ts, hts⟩
    have halone : ofText e.line (String.ofList s.chars) = .ok ⟨e.line, ts⟩ := by
      apply ofText_eq_ok_iff_cuts.mpr
      rw [String.toList_ofList]
      exact ⟨rfl, s, hcut.alone, hts⟩
    refine ⟨hline, String.ofList s.chars, String.ofList rest, ?_, ?_, ?_, ?_, ?_, ⟨_, halone⟩,
      ?_, ?_⟩
    · rw [<- String.ofList_append, <- hcut.eq_append, String.ofList_toList]
    · rw [hcolumn, Text.utf8ByteSize_of_ascii fun c hc => hcut.ascii hc]
    · rw [hcolumn, String.length_ofList]
    · rw [String.toList_ofList]
      exact fun c hc => hcut.ascii hc
    · rw [String.toList_ofList]
      exact ⟨s, hcut⟩
    · rw [String.toList_ofList]
      exact hstuck
    · rw [String.toList_ofList]
      exact hstuck.kind_eq_invalidSymbol_iff
  · intro h
    rcases h with ⟨hline, before, rest, hfirst⟩
    rcases hfirst.cut with ⟨s, hcut⟩
    have hchars : before.toList = s.chars := by
      have heq := hcut.eq_append
      rw [hfirst.whole, String.toList_append] at heq
      exact List.append_cancel_right heq
    refine ⟨s, rest.toList, hcut, hfirst.stuck, hline, ?_⟩
    rw [hfirst.position, Nat.zero_add, <- hchars, String.length_toList]

/--
A line is read as the tokens of its only cut into lexemes, each as long as it can be.  If there is
no such cut, then reading fails at the first place where cutting cannot go on.
-/
theorem ofText_is_longest_match (number : Nat) (text : String) :
    ((exists l, ofText number text = .ok l) <-> exists s, Cuts [] text.toList s) ∧
    (forall s s', Cuts [] text.toList s -> Cuts [] text.toList s' -> s = s') ∧
    (forall s l, Cuts [] text.toList s ->
      (ofText number text = .ok l <->
        l.number = number ∧ List.Forall₂ Denotes s.lexemes l.tokens)) ∧
    (forall e, ofText number text = .error e <->
      e.line = number ∧ exists before rest, e.IsFirst text before rest) := by
  refine ⟨?_, fun s s' h h' => h.unique h', ?_, fun e => ofText_eq_error_iff⟩
  · constructor
    · intro h
      rcases h with ⟨l, hl⟩
      rcases ofText_eq_ok_iff_cuts.mp hl with ⟨_, s, hcut, _⟩
      exact ⟨s, hcut⟩
    · intro h
      rcases h with ⟨s, hcut⟩
      rcases hcut.exists_tokens with ⟨ts, hts⟩
      exact ⟨⟨number, ts⟩, ofText_eq_ok_iff_cuts.mpr ⟨rfl, s, hcut, hts⟩⟩
  · intro s l hcut
    rw [ofText_eq_ok_iff_cuts]
    constructor
    · intro h
      rcases h with ⟨hnumber, s', hcut', hts⟩
      rw [hcut.unique hcut']
      exact ⟨hnumber, hts⟩
    · intro h
      exact ⟨h.left, s, hcut, h.right⟩

/-- A numeral ends where a name begins, and a wrong numeral comes before a strange character. -/
theorem numeralBeforeName_is_longest_match :
    (exists s, Cuts [] "1G .".toList s ∧
      List.Forall₂ Denotes s.lexemes [.number 1, .label "G", .directive ""]) ∧
      exists before rest,
        LexError.IsFirst "1G,%102€" before rest ⟨.invalidBinary, 7, 3⟩ := by
  have hok : ofText 7 "1G ." = .ok ⟨7, [.number 1, .label "G", .directive ""]⟩ := by
    decide +kernel
  have herror : ofText 7 "1G,%102€" = .error ⟨.invalidBinary, 7, 3⟩ := by decide +kernel
  rcases ofText_is_longest_match 7 "1G ." with ⟨hexists, _, htokens, _⟩
  rcases ofText_is_longest_match 7 "1G,%102€" with ⟨_, _, _, hfails⟩
  constructor
  · rcases hexists.mp ⟨_, hok⟩ with ⟨s, hcut⟩
    exact ⟨s, hcut, ((htokens s _ hcut).mp hok).right⟩
  · exact ((hfails _).mp herror).right

end TokenLine
end Asm65
