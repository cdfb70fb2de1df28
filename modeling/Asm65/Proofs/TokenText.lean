import Asm65.Proofs.LongestMatch

/-!
# Tokens in their written form

The written form of a token need not be the lexeme that the token was read from: a number is
written in decimal whatever its radix was.  But it is a lexeme of the same token, and with
spaces between them no two lexemes run together.  So a line can be replaced by its tokens.
-/

namespace Asm65

open Lexeme (Denotes)

namespace Token

/-- Some lexeme stands for the token, so there are lines that hold it. -/
def Occurs (t : Token) : Prop :=
  exists lexeme, Denotes lexeme t

/-- A line is made of lexemes, and each of its tokens is what one of them stands for. -/
theorem occurs_of_scan {line column : Nat} {cs : List Char} {ts : List Token}
    (h : scan line column cs = .ok ts) : forall t, t ∈ ts -> t.Occurs := by
  apply scan_induction (motive := fun _ ts => forall t, t ∈ ts -> t.Occurs) _ _ _ h
  · intro t ht
    cases ht
  · intro c cs ts hspace ih
    exact ih
  · intro c shape body rest t ts hfirst hbody hrest htoken ih
    have hdenotes := Lexeme.denotes_of_token hfirst hbody htoken
    exact List.forall_mem_cons.mpr ⟨⟨c :: body, hdenotes⟩, ih⟩

theorem isLabelName_of_denotes {lexeme : List Char} {name : String}
    (h : Denotes lexeme (.label name)) : IsLabelName name := by
  cases h with
  | mark hmark => simp [Lexeme.marks] at hmark
  | label hname hreserved =>
      refine ⟨hname, ?_⟩
      cases hfound : Mnemonic.ofName? name with
      | none => rfl
      | some m =>
          rw [<- String.ofList_toList (s := name), Lexeme.ofName?_eq_some_iff hname,
            String.ofList_toList] at hfound
          exact (hreserved m hfound).elim

theorem isWordChar_of_denotes {lexeme : List Char} {name : String}
    (h : Denotes lexeme (.directive name)) :
    forall d, d ∈ name.toList -> Shape.isWordChar d = true := by
  cases h with
  | mark hmark => simp [Lexeme.marks] at hmark
  | directive hdirective => exact (Lexeme.isDirective_cons_iff.mp hdirective).right

/-- What is written for a token is read as this token, whatever it was read from. -/
theorem spells_text {t : Token} (h : t.Occurs) : Spells t.text.toList [t] := by
  rcases h with ⟨lexeme, hdenotes⟩
  cases t with
  | hash => exact spells_mark rfl spells_nil
  | comma => exact spells_mark rfl spells_nil
  | colon => exact spells_mark rfl spells_nil
  | lparen => exact spells_mark rfl spells_nil
  | rparen => exact spells_mark rfl spells_nil
  | number n =>
      rw [text, String.toList_ofList]
      exact spells_decimal n
  | directive name =>
      rw [text, String.toList_append]
      exact spells_directive (isWordChar_of_denotes hdenotes)
  | mnemonic m => exact spells_mnemonic m
  | label name => exact spells_label (isLabelName_of_denotes hdenotes)

theorem spells_texts {ts : List Token} (h : forall t, t ∈ ts -> t.Occurs) :
    Spells ([' '].intercalate (ts.map fun t => t.text.toList)) ts := by
  induction ts with
  | nil => exact spells_nil
  | cons t ts ih =>
      rw [List.forall_mem_cons] at h
      have hothers := ih h.right
      cases ts with
      | nil =>
          rw [List.map_singleton, List.intercalate_singleton]
          exact spells_text h.left
      | cons u ts =>
          rw [List.map_cons, List.map_cons, List.intercalate_cons_cons, List.append_assoc]
          exact (spells_text h.left).append (breaks_cons rfl) (spells_space hothers)

end Token

namespace TokenLine

/-- The tokens of a line in their written forms, with a single space between any two. -/
def text (l : TokenLine) : String :=
  " ".intercalate (l.tokens.map Token.text)

/-- A line of tokens can be read back from its text exactly if its tokens occur in lines. -/
theorem ofText_text_iff (l : TokenLine) :
    ofText l.number l.text = .ok l <-> forall t, t ∈ l.tokens -> t.Occurs := by
  constructor
  · intro h
    rcases map_eq_ok_iff.mp h with ⟨ts, hts, heq⟩
    rw [<- heq]
    exact Token.occurs_of_scan hts
  · intro h
    have hchars : l.text.toList = [' '].intercalate (l.tokens.map fun t => t.text.toList) := by
      rw [text, String.toList_intercalate, List.map_map]
      rfl
    rw [ofText, hchars, (Token.spells_texts h).scans]
    rfl

/-- A line that could be read is read as the same tokens from the text of these tokens. -/
theorem ofText_spelled {number : Nat} {line : String} {l : TokenLine}
    (h : ofText number line = .ok l) : ofText number l.text = .ok l := by
  rcases map_eq_ok_iff.mp h with ⟨ts, hts, rfl⟩
  exact (ofText_text_iff ⟨number, ts⟩).mpr (Token.occurs_of_scan hts)

/-- Numbers of three radixes, lexemes that touch each other, and a directive without a name. -/
def crowdedLine : TokenLine :=
  ⟨3, [.label "L", .colon, .number 5, .number 255, .comma, .number 15, .directive "", .lparen,
    .mnemonic .lda]⟩

theorem crowdedLine_spelled :
    ofText 3 "L:%101 $0FF,017\t.(LDA" = .ok crowdedLine ∧
      crowdedLine.text = "L : 5 255 , 15 . ( LDA" ∧
      ofText 3 "L : 5 255 , 15 . ( LDA" = .ok crowdedLine := by
  have hline : ofText 3 "L:%101 $0FF,017\t.(LDA" = .ok crowdedLine := by
    decide +kernel
  have htext : crowdedLine.text = "L : 5 255 , 15 . ( LDA" := by
    decide +kernel
  refine ⟨hline, htext, ?_⟩
  rw [<- htext]
  exact ofText_spelled hline

end TokenLine
end Asm65
