import Asm65.Proofs.Lexemes
import Asm65.Proofs.Parsing
import Asm65.Source

/-!
# Written statements

A statement is written with its numbers in fixed forms and its directive under one of its
names.  The tokens of the written form are given here beside the text.  The text scans as
these tokens, and they derive the statement that was written.  So a statement that has been
read from a line can be written and read again, with all of its labels at the same tokens.
-/

namespace Asm65

/-!
# The tokens of a written statement
-/

def Target.tokens : Target -> List Token
  | .address a => [.number a]
  | .label l => [.label l.name]

def Branch.tokens : Branch -> List Token
  | .offset d => [.number d.toUInt16]
  | .label l => [.label l.name]

def Operand.tokens : Operand -> List Token
  | .implied => []
  | .accumulator => [.label "A"]
  | .immediate b => [.hash, .number b.toUInt16]
  | .zeroPage b => [.number b.toUInt16]
  | .zeroPageX b => [.number b.toUInt16, .comma, .label "X"]
  | .zeroPageY b => [.number b.toUInt16, .comma, .label "Y"]
  | .absolute t => t.tokens
  | .absoluteX w => [.number w, .comma, .label "X"]
  | .absoluteY w => [.number w, .comma, .label "Y"]
  | .indirectX b => [.lparen, .number b.toUInt16, .comma, .label "X", .rparen]
  | .indirectY b => [.lparen, .number b.toUInt16, .rparen, .comma, .label "Y"]
  | .relative b => b.tokens
  | .indirect t => .lparen :: (t.tokens ++ [.rparen])

def Directive.valueTokens : List UInt16 -> List Token
  | [] => []
  | [v] => [.number v]
  | v :: w :: vs => .number v :: .comma :: valueTokens (w :: vs)

def Directive.tokens : Directive -> List Token
  | .data values => .directive "DB" :: valueTokens values
  | .bytes values => .directive "BYTE" :: valueTokens (values.map UInt8.toUInt16)
  | .words values => .directive "WORD" :: valueTokens values
  | .origin a => [.directive "ORG", .number a]

def Nucleus.tokens : Nucleus -> List Token
  | .instruction i => .mnemonic i.mnemonic :: i.operand.tokens
  | .directive d => d.tokens

def Statement.lineTokens (label? : Option LabelRef) (nucleus? : Option Nucleus) : List Token :=
  (match label? with
    | some l => [.label l.name, .colon]
    | none => []) ++
  match nucleus? with
    | some n => n.tokens
    | none => []

/-- The tokens that the written form of a statement consists of. -/
def Statement.tokens (st : Statement) : List Token :=
  lineTokens st.label? st.nucleus?

/-!
# Scanning written text
-/

namespace Token

/-- Every label among the tokens is one that the scan can find. -/
def Named (ts : List Token) : Prop :=
  forall name, .label name ∈ ts -> IsLabelName name

theorem isLabelName_register {name : String} (h : name = "A" ∨ name = "X" ∨ name = "Y") :
    IsLabelName name := by
  rcases h with rfl | rfl | rfl
  · exact ⟨⟨_, [], rfl, by decide, by simp⟩, by decide⟩
  · exact ⟨⟨_, [], rfl, by decide, by simp⟩, by decide⟩
  · exact ⟨⟨_, [], rfl, by decide, by simp⟩, by decide⟩

theorem spells_register {name : String} (h : name = "A" ∨ name = "X" ∨ name = "Y") :
    Spells name.toList [.label name] :=
  spells_label (isLabelName_register h)

end Token

open Token

theorem Target.spells_text (t : Target) (h : Named t.tokens) :
    Spells t.text.toList t.tokens := by
  cases t with
  | address a => exact spells_word a
  | label l => exact spells_label (h l.name List.mem_cons_self)

theorem Branch.spells_text (b : Branch) (h : Named b.tokens) :
    Spells b.text.toList b.tokens := by
  cases b with
  | offset d => exact spells_byte d
  | label l => exact spells_label (h l.name List.mem_cons_self)

theorem Operand.spells_indexed {cs : List Char} {n : UInt16} {name : String}
    (hnumber : Spells cs [.number n]) (hname : name = "X" ∨ name = "Y") :
    Spells (cs ++ ',' :: name.toList) [.number n, .comma, .label name] := by
  apply hnumber.append (breaks_cons rfl)
  exact spells_mark rfl (spells_register (Or.inr hname))

theorem Operand.spells_parenthesized {cs : List Char} {ts : List Token} (h : Spells cs ts) :
    Spells ('(' :: (cs ++ [')'])) (.lparen :: (ts ++ [.rparen])) := by
  apply spells_mark rfl
  exact h.append (breaks_cons rfl) (spells_mark rfl spells_nil)

theorem Operand.spells_text (op : Operand) (h : Named op.tokens) :
    Spells op.text.toList op.tokens := by
  cases op with
  | implied => exact spells_nil
  | accumulator => exact spells_register (Or.inl rfl)
  | immediate b =>
      have htext : (immediate b).text.toList = '#' :: (Hex.byteText b).toList := by
        simp [Operand.text]
      rw [htext]
      exact spells_mark rfl (spells_byte b)
  | zeroPage b => exact spells_byte b
  | zeroPageX b =>
      have htext : (zeroPageX b).text.toList = (Hex.byteText b).toList ++ ',' :: "X".toList := by
        simp [Operand.text]
      rw [htext]
      exact spells_indexed (spells_byte b) (Or.inl rfl)
  | zeroPageY b =>
      have htext : (zeroPageY b).text.toList = (Hex.byteText b).toList ++ ',' :: "Y".toList := by
        simp [Operand.text]
      rw [htext]
      exact spells_indexed (spells_byte b) (Or.inr rfl)
  | absolute t => exact t.spells_text h
  | absoluteX w =>
      have htext : (absoluteX w).text.toList = (Hex.wordText w).toList ++ ',' :: "X".toList := by
        simp [Operand.text]
      rw [htext]
      exact spells_indexed (spells_word w) (Or.inl rfl)
  | absoluteY w =>
      have htext : (absoluteY w).text.toList = (Hex.wordText w).toList ++ ',' :: "Y".toList := by
        simp [Operand.text]
      rw [htext]
      exact spells_indexed (spells_word w) (Or.inr rfl)
  | indirectX b =>
      have htext : (indirectX b).text.toList =
          '(' :: (((Hex.byteText b).toList ++ ',' :: "X".toList) ++ [')']) := by
        simp [Operand.text]
      rw [htext]
      exact spells_parenthesized (spells_indexed (spells_byte b) (Or.inl rfl))
  | indirectY b =>
      have htext : (indirectY b).text.toList =
          ('(' :: ((Hex.byteText b).toList ++ [')'])) ++ ',' :: "Y".toList := by
        simp [Operand.text]
      rw [htext]
      apply (spells_parenthesized (spells_byte b)).append (breaks_cons rfl)
      exact spells_mark rfl (spells_register (Or.inr (Or.inr rfl)))
  | relative b => exact b.spells_text h
  | indirect t =>
      have htext : (indirect t).text.toList = '(' :: (t.text.toList ++ [')']) := by
        simp [Operand.text]
      rw [htext]
      apply spells_parenthesized
      apply t.spells_text
      intro name hname
      exact h name (List.mem_cons_of_mem _ (List.mem_append_left _ hname))

/-- Numbers in decimal, with a comma and a space between any two. -/
theorem Directive.spells_values (values : List UInt16) :
    Spells ([',', ' '].intercalate (values.map fun v => Text.decimal v.toNat))
      (valueTokens values) := by
  induction values with
  | nil =>
      exact spells_nil
  | cons v vs ih =>
      cases vs with
      | nil =>
          rw [List.map_singleton, List.intercalate_singleton]
          exact spells_decimal v
      | cons w vs =>
          rw [List.map_cons, List.map_cons, List.intercalate_cons_cons, List.append_assoc]
          apply (spells_decimal v).append (breaks_cons rfl)
          exact spells_mark rfl (spells_space ih)

theorem Directive.spells_valuesText {name : String} {values : List UInt16}
    (hname : forall d, d ∈ name.toList -> Shape.isWordChar d = true) :
    Spells ('.' :: (name.toList ++ ' ' :: (valuesText (values.map UInt16.toNat)).toList))
      (.directive name :: valueTokens values) := by
  have hvalues : (valuesText (values.map UInt16.toNat)).toList =
      [',', ' '].intercalate (values.map fun v => Text.decimal v.toNat) := by
    rw [valuesText, String.toList_ofList, List.map_map]
    rfl
  rw [hvalues]
  exact (spells_directive hname).append (breaks_cons rfl) (spells_space (spells_values values))

theorem Directive.spells_text (d : Directive) : Spells d.text.toList d.tokens := by
  cases d with
  | data values =>
      have htext : (data values).text.toList =
          '.' :: ("DB".toList ++ ' ' :: (valuesText (values.map UInt16.toNat)).toList) := by
        simp [Directive.text]
      rw [htext]
      exact spells_valuesText (List.all_eq_true.mp rfl)
  | bytes values =>
      have hvalues : values.map UInt8.toNat = (values.map UInt8.toUInt16).map UInt16.toNat := by
        simp
      have htext : (bytes values).text.toList = '.' :: ("BYTE".toList ++ ' ' ::
          (valuesText ((values.map UInt8.toUInt16).map UInt16.toNat)).toList) := by
        simp [Directive.text, hvalues]
      rw [htext]
      exact spells_valuesText (List.all_eq_true.mp rfl)
  | words values =>
      have htext : (words values).text.toList =
          '.' :: ("WORD".toList ++ ' ' :: (valuesText (values.map UInt16.toNat)).toList) := by
        simp [Directive.text]
      rw [htext]
      exact spells_valuesText (List.all_eq_true.mp rfl)
  | origin a =>
      have hname : forall d, d ∈ "ORG".toList -> Shape.isWordChar d = true :=
        List.all_eq_true.mp rfl
      have htext : (origin a).text.toList =
          '.' :: "ORG".toList ++ ' ' :: (Hex.wordText a).toList := by
        simp [Directive.text]
      rw [htext]
      exact (spells_directive hname).append (breaks_cons rfl) (spells_space (spells_word a))

theorem Instruction.spells_text (i : Instruction) (h : Named i.operand.tokens) :
    Spells i.text.toList (.mnemonic i.mnemonic :: i.operand.tokens) := by
  cases hoperand : i.operand with
  | implied =>
      have htext : i.text = i.mnemonic.name := by simp only [Instruction.text, hoperand]
      rw [htext]
      exact spells_mnemonic i.mnemonic
  | _ =>
      rw [<- hoperand]
      have htext : i.text.toList = i.mnemonic.name.toList ++ ' ' :: i.operand.text.toList := by
        simp [Instruction.text, hoperand]
      rw [htext]
      apply (spells_mnemonic i.mnemonic).append (breaks_cons rfl)
      exact spells_space (i.operand.spells_text h)

theorem Nucleus.spells_text (n : Nucleus) (h : Named n.tokens) :
    Spells n.text.toList n.tokens := by
  cases n with
  | instruction i =>
      apply i.spells_text
      intro name hname
      exact h name (List.mem_cons_of_mem _ hname)
  | directive d =>
      exact d.spells_text

namespace Statement

theorem spells_nucleus (nucleus? : Option Nucleus) (h : Named (lineTokens none nucleus?)) :
    Spells (text ⟨0, none, nucleus?⟩).toList (lineTokens none nucleus?) := by
  cases nucleus? with
  | none =>
      exact spells_nil
  | some n =>
      have htext : (text ⟨0, none, some n⟩).toList = n.text.toList := by simp [text]
      rw [htext]
      exact n.spells_text h

theorem spells_text (st : Statement) (h : Named st.tokens) :
    Spells st.text.toList st.tokens := by
  rcases st with ⟨line, label?, nucleus?⟩
  cases label? with
  | none =>
      exact spells_nucleus nucleus? h
  | some l =>
      have htext : (text ⟨line, some l, nucleus?⟩).toList =
          l.name.toList ++ ':' :: ' ' :: (text ⟨0, none, nucleus?⟩).toList := by
        simp [text]
      have hlabel := spells_label (h l.name List.mem_cons_self)
      have hnucleus : Named (lineTokens none nucleus?) := by
        intro name hname
        exact h name (List.mem_cons_of_mem _ (List.mem_cons_of_mem _ hname))
      rw [htext]
      apply hlabel.append (breaks_cons rfl)
      exact spells_mark rfl (spells_space (spells_nucleus nucleus? hnucleus))

end Statement

/-!
# Deriving from written tokens

An operand has only one sequence of tokens.  A directive has two if it has a longer name,
and then the shorter one is written.
-/

namespace Grammar

theorem eq_toUInt16_of_isByte {n : UInt16} {b : UInt8} (h : IsByte n b) : b.toUInt16 = n := by
  rw [<- UInt16.toNat_inj, UInt8.toNat_toUInt16]
  exact h.right

theorem isByte_toUInt16 (b : UInt8) : IsByte b.toUInt16 b := by
  unfold IsByte
  rw [UInt8.toNat_toUInt16]
  exact ⟨Nat.le_of_lt_succ b.toNat_lt, rfl⟩

theorem tokens_of_derivesOperand {m : Mnemonic} {k : Nat} {ts : List Token} {op : Operand}
    (h : DerivesOperand m k ts op) : op.tokens = ts := by
  cases h with
  | immediate hbyte => rw [Operand.tokens, eq_toUInt16_of_isByte hbyte]
  | offset hbyte _ => rw [Operand.tokens, Branch.tokens, eq_toUInt16_of_isByte hbyte]
  | zeroPage hbyte _ => rw [Operand.tokens, eq_toUInt16_of_isByte hbyte]
  | zeroPageX hbyte => rw [Operand.tokens, eq_toUInt16_of_isByte hbyte]
  | zeroPageY hbyte => rw [Operand.tokens, eq_toUInt16_of_isByte hbyte]
  | indirectX hbyte => rw [Operand.tokens, eq_toUInt16_of_isByte hbyte]
  | indirectY hbyte => rw [Operand.tokens, eq_toUInt16_of_isByte hbyte]
  | _ => rfl

theorem derivesValues_valueTokens {α : Type} {Item : UInt16 -> α -> Prop} {f : α -> UInt16}
    (hitem : forall v, Item (f v) v) {values : List α} (h : values ≠ []) :
    DerivesValues Item (Directive.valueTokens (values.map f)) values := by
  induction values with
  | nil =>
      exact (h rfl).elim
  | cons v vs ih =>
      cases vs with
      | nil => exact .one (hitem v)
      | cons w vs => exact .more (hitem v) (ih (List.cons_ne_nil w vs))

theorem ne_nil_of_derivesValues {α : Type} {Item : UInt16 -> α -> Prop} {ts : List Token}
    {values : List α} (h : DerivesValues Item ts values) : values ≠ [] := by
  cases h <;> exact List.cons_ne_nil _ _

theorem derivesWords_valueTokens {values : List UInt16} (h : values ≠ []) :
    DerivesValues Eq (Directive.valueTokens values) values := by
  have hderives : DerivesValues Eq (Directive.valueTokens (values.map id)) values :=
    derivesValues_valueTokens (fun _ => rfl) h
  rwa [List.map_id] at hderives

theorem derivesBytes_valueTokens {values : List UInt8} (h : values ≠ []) :
    DerivesValues IsByte (Directive.valueTokens (values.map UInt8.toUInt16)) values :=
  derivesValues_valueTokens isByte_toUInt16 h

theorem derivesDirective_tokens {ts : List Token} {d : Directive} (h : DerivesDirective ts d) :
    DerivesDirective d.tokens d := by
  cases h with
  | data hvs => exact .data (derivesWords_valueTokens (ne_nil_of_derivesValues hvs))
  | byte hbs => exact .byte (derivesBytes_valueTokens (ne_nil_of_derivesValues hbs))
  | bytes hbs => exact .byte (derivesBytes_valueTokens (ne_nil_of_derivesValues hbs))
  | word hvs => exact .word (derivesWords_valueTokens (ne_nil_of_derivesValues hvs))
  | words hvs => exact .word (derivesWords_valueTokens (ne_nil_of_derivesValues hvs))
  | origin => exact .origin

theorem derivesNucleus_tokens {k : Nat} {ts : List Token} {n : Nucleus}
    (h : DerivesNucleus k ts n) : DerivesNucleus k n.tokens n := by
  cases h with
  | directive hd =>
      exact .directive (derivesDirective_tokens hd)
  | instruction hencoded hoperand =>
      rw [<- tokens_of_derivesOperand hoperand] at hoperand
      exact .instruction hencoded hoperand

theorem derivesLine_lineTokens {ts : List Token} {label? : Option LabelRef}
    {nucleus? : Option Nucleus} (h : DerivesLine ts label? nucleus?) :
    DerivesLine (Statement.lineTokens label? nucleus?) label? nucleus? := by
  cases h with
  | empty => exact .empty
  | label => exact .label
  | labelled hn => exact .labelled (derivesNucleus_tokens hn)
  | bare hn => exact .bare (derivesNucleus_tokens hn)

/-!
The labels that are written are those that were read, so they are found again.
-/

theorem label_not_mem_valueTokens (name : String) (values : List UInt16) :
    .label name ∉ Directive.valueTokens values := by
  induction values with
  | nil =>
      simp [Directive.valueTokens]
  | cons v vs ih =>
      cases vs with
      | nil => simp [Directive.valueTokens]
      | cons w vs => simpa [Directive.valueTokens] using ih

theorem named_directive (d : Directive) : Named d.tokens := by
  intro name hname
  cases d <;> simp [Directive.tokens, label_not_mem_valueTokens] at hname

theorem named_nucleus {k : Nat} {ts : List Token} {n : Nucleus} (h : DerivesNucleus k ts n)
    (hts : Named ts) : Named n.tokens := by
  cases h with
  | directive hd =>
      exact named_directive _
  | instruction hencoded hoperand =>
      rw [Nucleus.tokens, tokens_of_derivesOperand hoperand]
      exact hts

theorem named_cons_cons_iff {t u : Token} {ts : List Token} :
    Named (t :: u :: ts) <-> Named [t, u] ∧ Named ts := by
  simp only [Named, List.mem_cons, List.not_mem_nil, or_false, or_imp, forall_and, and_assoc]

theorem named_lineTokens {ts : List Token} {label? : Option LabelRef}
    {nucleus? : Option Nucleus} (h : DerivesLine ts label? nucleus?) (hts : Named ts) :
    Named (Statement.lineTokens label? nucleus?) := by
  cases h with
  | empty => exact hts
  | label => exact hts
  | labelled hn =>
      rw [named_cons_cons_iff] at hts
      exact named_cons_cons_iff.mpr ⟨hts.left, named_nucleus hn hts.right⟩
  | bare hn => exact named_nucleus hn hts

end Grammar

/-!
# Reading written statements
-/

namespace Statement

open Grammar

/-- Reading a line of text, by its characters and tokens. -/
theorem ofText_eq_ok_iff {number : Nat} {text : String} {st : Statement} :
    ofText number text = .ok st <->
      exists ts, Scans text.toList ts ∧ st.line = number ∧
        DerivesLine ts st.label? st.nucleus? := by
  unfold ofText TokenLine.ofText ofLine
  simp only [bind_eq_ok_iff, mapError_eq_ok_iff, map_eq_ok_iff]
  constructor
  · intro h
    rcases h with ⟨_, ⟨ts, hscan, rfl⟩, htokens⟩
    rcases ofTokens_eq_ok_iff.mp htokens with ⟨_, _, _, _, hline⟩
    exact ⟨ts, scans_of_scan hscan, hline, derivesLine_of_ofTokens htokens⟩
  · intro h
    rcases h with ⟨ts, hscans, rfl, hderives⟩
    exact ⟨_, ⟨ts, hscans st.line 0, rfl⟩, ofTokens_of_derivesLine hderives⟩

theorem named_of_scans {cs : List Char} {ts : List Token} (h : Scans cs ts) : Named ts :=
  isLabelName_of_scan (h 0 0)

theorem spells_of_ofText {number : Nat} {text : String} {st : Statement}
    (h : ofText number text = .ok st) : Spells st.text.toList st.tokens := by
  rcases ofText_eq_ok_iff.mp h with ⟨ts, hscans, _, hderives⟩
  exact st.spells_text (named_lineTokens hderives (named_of_scans hscans))

/-- What has been read from a line is read again from its written form. -/
theorem ofText_text {number : Nat} {text : String} {st : Statement}
    (h : ofText number text = .ok st) : ofText number st.text = .ok st := by
  rcases ofText_eq_ok_iff.mp h with ⟨ts, _, hline, hderives⟩
  apply ofText_eq_ok_iff.mpr
  exact ⟨st.tokens, (spells_of_ofText h).scans, hline, derivesLine_lineTokens hderives⟩

/-- The same text on another line says the same. -/
theorem ofText_renumber {number : Nat} {text : String} {st : Statement}
    (h : ofText number text = .ok st) (other : Nat) :
    ofText other text = .ok { st with line := other } := by
  rcases ofText_eq_ok_iff.mp h with ⟨ts, hscans, _, hderives⟩
  exact ofText_eq_ok_iff.mpr ⟨ts, hscans, rfl, hderives⟩

end Statement
end Asm65
