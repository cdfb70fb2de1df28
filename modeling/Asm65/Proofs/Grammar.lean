import Asm65.Statement.Parser

/-!
# The grammar of lines

Which statement the tokens of a line stand for, given by derivation rules and with no order
of reading.  Every rule describes all of the tokens it derives from, so nothing can follow
a derived part except what another rule puts there.

Tokens are numbered from one.  A label that is used in an operand remembers its number,
and so the rules for operands carry the number of the first token behind the mnemonic.
-/

namespace Asm65
namespace Grammar

/-- The number `n` is at most 255, and `b` is its value. -/
def IsByte (n : UInt16) (b : UInt8) : Prop :=
  n.toNat ≤ 255 ∧ b.toNat = n.toNat

/-- The number `n` needs two bytes. -/
def IsWide (n : UInt16) : Prop :=
  256 ≤ n.toNat

def branches : List Mnemonic :=
  [.bcc, .bcs, .beq, .bmi, .bne, .bpl, .bvc, .bvs]

def jumps : List Mnemonic :=
  [.jmp, .jsr]

/-- One number at least, and a comma between any two. -/
inductive DerivesValues {α : Type} (Item : UInt16 -> α -> Prop) :
    List Token -> List α -> Prop where
  | one {n : UInt16} {v : α} :
      Item n v -> DerivesValues Item [.number n] [v]
  | more {n : UInt16} {v : α} {ts : List Token} {vs : List α} :
      Item n v -> DerivesValues Item ts vs ->
        DerivesValues Item (.number n :: .comma :: ts) (v :: vs)

inductive DerivesDirective : List Token -> Directive -> Prop where
  | data {ts : List Token} {vs : List UInt16} :
      DerivesValues Eq ts vs -> DerivesDirective (.directive "DB" :: ts) (.data vs)
  | byte {ts : List Token} {bs : List UInt8} :
      DerivesValues IsByte ts bs -> DerivesDirective (.directive "BYTE" :: ts) (.bytes bs)
  | bytes {ts : List Token} {bs : List UInt8} :
      DerivesValues IsByte ts bs -> DerivesDirective (.directive "BYTES" :: ts) (.bytes bs)
  | word {ts : List Token} {vs : List UInt16} :
      DerivesValues Eq ts vs -> DerivesDirective (.directive "WORD" :: ts) (.words vs)
  | words {ts : List Token} {vs : List UInt16} :
      DerivesValues Eq ts vs -> DerivesDirective (.directive "WORDS" :: ts) (.words vs)
  | origin {n : UInt16} :
      DerivesDirective [.directive "ORG", .number n] (.origin n)

/-- The operand of the mnemonic `m`, whose first token has the number `k`. -/
inductive DerivesOperand (m : Mnemonic) (k : Nat) : List Token -> Operand -> Prop where
  | implied :
      DerivesOperand m k [] .implied
  | immediate {n : UInt16} {b : UInt8} :
      IsByte n b -> DerivesOperand m k [.hash, .number n] (.immediate b)
  | accumulator :
      DerivesOperand m k [.label "A"] .accumulator
  | jump {name : String} :
      name ≠ "A" -> m ∈ jumps ->
        DerivesOperand m k [.label name] (.absolute (.label ⟨name, k⟩))
  | branch {name : String} :
      name ≠ "A" -> m ∉ jumps ->
        DerivesOperand m k [.label name] (.relative (.label ⟨name, k⟩))
  | offset {n : UInt16} {b : UInt8} :
      IsByte n b -> m ∈ branches -> DerivesOperand m k [.number n] (.relative (.offset b))
  | zeroPage {n : UInt16} {b : UInt8} :
      IsByte n b -> m ∉ branches -> DerivesOperand m k [.number n] (.zeroPage b)
  | absolute {n : UInt16} :
      IsWide n -> DerivesOperand m k [.number n] (.absolute (.address n))
  | zeroPageX {n : UInt16} {b : UInt8} :
      IsByte n b -> DerivesOperand m k [.number n, .comma, .label "X"] (.zeroPageX b)
  | zeroPageY {n : UInt16} {b : UInt8} :
      IsByte n b -> DerivesOperand m k [.number n, .comma, .label "Y"] (.zeroPageY b)
  | absoluteX {n : UInt16} :
      IsWide n -> DerivesOperand m k [.number n, .comma, .label "X"] (.absoluteX n)
  | absoluteY {n : UInt16} :
      IsWide n -> DerivesOperand m k [.number n, .comma, .label "Y"] (.absoluteY n)
  | indirectX {n : UInt16} {b : UInt8} :
      IsByte n b ->
        DerivesOperand m k [.lparen, .number n, .comma, .label "X", .rparen] (.indirectX b)
  | indirectY {n : UInt16} {b : UInt8} :
      IsByte n b ->
        DerivesOperand m k [.lparen, .number n, .rparen, .comma, .label "Y"] (.indirectY b)
  | indirect {n : UInt16} :
      IsWide n ->
        DerivesOperand m k [.lparen, .number n, .rparen] (.indirect (.address n))
  | indirectLabel {name : String} :
      DerivesOperand m k [.lparen, .label name, .rparen] (.indirect (.label ⟨name, k + 1⟩))

/--
A directive, or a mnemonic with an operand, from token `k` on.  The opcode table has the
last word on the operand: there is no instruction for a pair that it does not list.
-/
inductive DerivesNucleus (k : Nat) : List Token -> Nucleus -> Prop where
  | directive {ts : List Token} {d : Directive} :
      DerivesDirective ts d -> DerivesNucleus k ts (.directive d)
  | instruction {ts : List Token} {m : Mnemonic} {operand : Operand} {opcode : UInt8}
      (h : m.opcode? operand.mode = some opcode) :
      DerivesOperand m (k + 1) ts operand ->
        DerivesNucleus k (.mnemonic m :: ts) (.instruction ⟨m, operand, opcode, h⟩)

/-- A whole line: nothing, a label definition, a nucleus, or both. -/
inductive DerivesLine : List Token -> Option LabelRef -> Option Nucleus -> Prop where
  | empty :
      DerivesLine [] none none
  | label {name : String} :
      DerivesLine [.label name, .colon] (some ⟨name, 1⟩) none
  | labelled {name : String} {ts : List Token} {n : Nucleus} :
      DerivesNucleus 3 ts n ->
        DerivesLine (.label name :: .colon :: ts) (some ⟨name, 1⟩) (some n)
  | bare {ts : List Token} {n : Nucleus} :
      DerivesNucleus 1 ts n -> DerivesLine ts none (some n)

/-!
## Sizes and classes
-/

theorem lt_256_iff {n : UInt16} : n < 256 <-> n.toNat ≤ 255 := by
  rw [UInt16.lt_iff_toNat_lt]
  exact Nat.lt_succ_iff

theorem isByte_iff {n : UInt16} {b : UInt8} : IsByte n b <-> n < 256 ∧ n.toUInt8 = b := by
  unfold IsByte
  rw [lt_256_iff, <- UInt8.toNat_inj, UInt16.toNat_toUInt8]
  omega

theorem isWide_iff {n : UInt16} : IsWide n <-> ¬ n < 256 := by
  unfold IsWide
  rw [lt_256_iff]
  omega

theorem isByte_toUInt8 {n : UInt16} (h : n < 256) : IsByte n n.toUInt8 :=
  isByte_iff.mpr ⟨h, rfl⟩

theorem isBranch_iff {m : Mnemonic} : m.isBranch = true <-> m ∈ branches := by
  cases m <;> decide

theorem isJump_iff {m : Mnemonic} : m.isJump = true <-> m ∈ jumps := by
  cases m <;> decide

end Grammar
end Asm65
