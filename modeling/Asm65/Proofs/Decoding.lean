import Asm65.Proofs.Parsing
import Asm65.Proofs.Writing
import Mathlib.Data.List.Basic

/-!
# Machine code and its instructions

No byte encodes two instructions, and the mode that an opcode stands for says how many
operand bytes follow.  So machine code can be cut into instructions from the left, and there
is only one way to do it.

This is said by a decoder that takes one instruction off the front of a byte string.  It gets
back every instruction whose operand is written out, whatever stands behind it.  The address
of a label does not show that it was a label, so labels are left out.
-/

namespace Asm65

/-!
# Opcodes
-/

namespace Opcode

/-- The whole instruction table: every opcode with the pair that it encodes. -/
def table : List (UInt8 × Mnemonic × Mode) :=
  Mnemonic.all.flatMap fun m => m.encodings.map fun e => (e.2, m, e.1)

/-- What a byte means at the start of an instruction. -/
def meaning? (b : UInt8) : Option (Mnemonic × Mode) :=
  (table.find? fun e => e.1.toNat == b.toNat).map Prod.snd

/-- In the whole table, each opcode is found where it is listed. -/
theorem meaning?_of_mem_encodings :
    forall m, m ∈ Mnemonic.all -> forall e, e ∈ m.encodings -> meaning? e.2 = some (m, e.1) := by
  decide +kernel

theorem mem_all (m : Mnemonic) : m ∈ Mnemonic.all := by
  cases m <;> decide

theorem meaning?_of_opcode? {m : Mnemonic} {mode : Mode} {b : UInt8}
    (h : m.opcode? mode = some b) : meaning? b = some (m, mode) := by
  rcases List.lookup_eq_some_iff.mp h with ⟨before, after, hencodings, _⟩
  have hmem : (mode, b) ∈ m.encodings := by
    rw [hencodings]
    exact List.mem_append_right before List.mem_cons_self
  exact meaning?_of_mem_encodings m (mem_all m) (mode, b) hmem

end Opcode

/-!
# Operands
-/

/-- The word that two bytes make up, the low one first. -/
def wordOf (low high : UInt8) : UInt16 :=
  UInt16.ofNat (low.toNat + 256 * high.toNat)

/-- The operand that bytes write out in a mode. -/
def Mode.operand? : Mode -> List UInt8 -> Option Operand
  | .implied, [] => some .implied
  | .accumulator, [] => some .accumulator
  | .immediate, [b] => some (.immediate b)
  | .zeroPage, [b] => some (.zeroPage b)
  | .zeroPageX, [b] => some (.zeroPageX b)
  | .zeroPageY, [b] => some (.zeroPageY b)
  | .indirectX, [b] => some (.indirectX b)
  | .indirectY, [b] => some (.indirectY b)
  | .relative, [b] => some (.relative (.offset b))
  | .absolute, [low, high] => some (.absolute (.address (wordOf low high)))
  | .absoluteX, [low, high] => some (.absoluteX (wordOf low high))
  | .absoluteY, [low, high] => some (.absoluteY (wordOf low high))
  | .indirect, [low, high] => some (.indirect (.address (wordOf low high)))
  | _, _ => none

theorem wordOf_wordBytes (w : UInt16) : wordOf w.toUInt8 (w >>> 8).toUInt8 = w := by
  rcases wordBytes_value w with ⟨low, high, hbytes, hvalue⟩
  rw [wordBytes] at hbytes
  cases hbytes
  rw [wordOf, hvalue, UInt16.ofNat_toNat]

/-- The bytes of an operand without a label say which operand of its mode it is. -/
theorem Operand.operand?_of_literal {operand : Operand} {bytes : List UInt8}
    (h : operand.payload = .literal bytes) : operand.mode.operand? bytes = some operand := by
  cases operand with
  | absolute t =>
      cases t with
      | label l => cases h
      | address w =>
          cases h
          rw [mode, wordBytes, Mode.operand?, wordOf_wordBytes]
  | indirect t =>
      cases t with
      | label l => cases h
      | address w =>
          cases h
          rw [mode, wordBytes, Mode.operand?, wordOf_wordBytes]
  | absoluteX w =>
      cases h
      rw [mode, wordBytes, Mode.operand?, wordOf_wordBytes]
  | absoluteY w =>
      cases h
      rw [mode, wordBytes, Mode.operand?, wordOf_wordBytes]
  | relative b =>
      cases b with
      | label l => cases h
      | offset d =>
          cases h
          rfl
  | _ =>
      cases h
      rfl

/-!
# Instructions
-/

namespace Instruction

/-- The operand is written out: it does not name a label. -/
def IsLiteral (i : Instruction) : Prop :=
  i.operand.reference? = none

instance (i : Instruction) : Decidable i.IsLiteral :=
  inferInstanceAs (Decidable (_ = _))

theorem exists_literal_of_isLiteral {i : Instruction} (h : i.IsLiteral) :
    exists bytes, i.operand.payload = .literal bytes := by
  rw [IsLiteral, Operand.reference?_eq] at h
  split at h
  · next bytes hpayload => exact ⟨bytes, hpayload⟩
  · cases h

/-- The bytes of an instruction in which no label is known. -/
def code (i : Instruction) : List UInt8 :=
  i.opcode :: i.operand.payload.bytes (fun _ => none) 0

/-- Takes the first instruction off a byte string. -/
def decode? : List UInt8 -> Option (Instruction × List UInt8)
  | [] => none
  | b :: bs => do
      let (m, mode) ← Opcode.meaning? b
      let operand ← mode.operand? (bs.take mode.operandSize)
      let i ← of? m operand
      return (i, bs.drop mode.operandSize)

theorem decode?_code_append {i : Instruction} (h : i.IsLiteral) (rest : List UInt8) :
    decode? (i.code ++ rest) = some (i, rest) := by
  rcases exists_literal_of_isLiteral h with ⟨bytes, hpayload⟩
  have hlength := i.operand.payload_bytes_length (fun _ => none) 0
  rw [hpayload, Payload.bytes] at hlength
  have hcode : i.code ++ rest = i.opcode :: (bytes ++ rest) := by
    rw [code, hpayload, Payload.bytes, List.cons_append]
  have hmeaning := Opcode.meaning?_of_opcode? i.encoded
  have hfound : of? i.mnemonic i.operand = some i := Rest.of?_eq_some_iff.mpr ⟨rfl, rfl⟩
  have htake : (bytes ++ rest).take i.operand.mode.operandSize = bytes := List.take_left' hlength
  have hdrop : (bytes ++ rest).drop i.operand.mode.operandSize = rest := List.drop_left' hlength
  simp only [hcode, decode?, hmeaning, Option.bind_eq_bind, Option.bind_some, htake, hdrop,
    Operand.operand?_of_literal hpayload, hfound]
  rfl

/-- The code of instructions splits in one way only: the decoder finds the first of them. -/
theorem eq_of_flatMap_code {is js : List Instruction} (his : forall i, i ∈ is -> i.IsLiteral)
    (hjs : forall j, j ∈ js -> j.IsLiteral) (h : is.flatMap code = js.flatMap code) :
    is = js := by
  induction is generalizing js with
  | nil =>
      cases js with
      | nil => rfl
      | cons j js => cases h
  | cons i is ih =>
      cases js with
      | nil => cases h
      | cons j js =>
          rw [List.forall_mem_cons] at his hjs
          rw [List.flatMap_cons, List.flatMap_cons] at h
          have hdecode := congrArg decode? h
          rw [decode?_code_append his.left, decode?_code_append hjs.left] at hdecode
          injection hdecode with hpair
          injection hpair with hfirst hrest
          rw [hfirst, ih his.right hjs.right hrest]

end Instruction

/-!
# Instructions in memory
-/

namespace State

/-- Writes instructions one behind the other, as if all of them stood on one line. -/
def instructions (s : State) (line token : Nat) (is : List Instruction) :
    Except StatementError State :=
  is.foldlM (fun s i => s.instruction line token i) s

/-- The bytes in memory from the counter of `s` up to the counter of `t`. -/
def emitted (s t : State) : List UInt8 :=
  (t.image.extract s.counter t.counter).toList

theorem emitted_of_writes {s t : State} {bytes : List UInt8} {waiting : List Fixup}
    (h : Writes s t bytes waiting) : s.emitted t = bytes := by
  by_cases hempty : bytes = []
  · subst hempty
    simp [emitted, h.counter]
  · have hsize : s.counter + bytes.length ≤ t.image.size := by
      rw [h.image, Image.size_storeAll, if_neg hempty]
      exact Nat.le_max_right _ _
    have hlength : (s.emitted t).length = bytes.length := by
      rw [emitted, Array.length_toList, Array.size_extract, h.counter]
      omega
    apply List.ext_getElem hlength
    intro n _ hn
    simp only [emitted, Array.getElem_toList, Array.getElem_extract]
    rw [Image.getElem_eq_byte, h.image, Image.byte_storeAll, Write.byte?]
    simp [hn]

theorem writes_of_literal {s t : State} {line token : Nat} {i : Instruction} (hi : i.IsLiteral)
    (h : s.instruction line token i = .ok t) : Writes s t i.code [] := by
  rcases Instruction.exists_literal_of_isLiteral hi with ⟨bytes, hpayload⟩
  have hwrites := writes_of_instruction h
  rw [hpayload] at hwrites
  rw [Instruction.code, hpayload]
  exact hwrites

/-- Instructions that go through leave their code in memory, and nothing else. -/
theorem writes_of_instructions {s t : State} {line token : Nat} {is : List Instruction}
    (his : forall i, i ∈ is -> i.IsLiteral) (h : s.instructions line token is = .ok t) :
    Writes s t (is.flatMap Instruction.code) [] := by
  induction is generalizing s with
  | nil =>
      have hst : s = t := foldlM_nil_eq_ok_iff.mp h
      subst hst
      exact Writes.refl s
  | cons i is ih =>
      rw [List.forall_mem_cons] at his
      rcases foldlM_cons_eq_ok_iff.mp h with ⟨u, hu, ht⟩
      exact (writes_of_literal his.left hu).trans (ih his.right ht)

/-- Wherever they are written, instructions without labels can be told from their bytes. -/
theorem instructions_unique {s t s' t' : State} {line token line' token' : Nat}
    {is js : List Instruction} (his : forall i, i ∈ is -> i.IsLiteral)
    (hjs : forall j, j ∈ js -> j.IsLiteral) (ht : s.instructions line token is = .ok t)
    (ht' : s'.instructions line' token' js = .ok t') (h : s.emitted t = s'.emitted t') :
    is = js := by
  rw [emitted_of_writes (writes_of_instructions his ht),
    emitted_of_writes (writes_of_instructions hjs ht')] at h
  exact Instruction.eq_of_flatMap_code his hjs h

/-- Bytes that are opcodes elsewhere stand as operands here. -/
def threeInstructions : List Instruction :=
  [ ⟨.lda, .immediate 0x4C, 0xA9, rfl⟩, ⟨.jmp, .indirect (.address 0x4C6C), 0x6C, rfl⟩,
    ⟨.bne, .relative (.offset 0xA9), 0xD0, rfl⟩ ]

/-- The same instructions from their mnemonics and operands. -/
def threePairs : List Instruction :=
  [ (.lda, .immediate 0x4C), (.jmp, .indirect (.address 0x4C6C)),
    (.bne, .relative (.offset 0xA9)) ].filterMap fun pair => Instruction.of? pair.1 pair.2

theorem threeInstructions_unique :
    start.instructions 1 1 threeInstructions =
        .ok ⟨7, false, #[0xA9, 0x4C, 0x6C, 0x6C, 0x4C, 0xD0, 0xA9], Symbols.empty⟩ ∧
      (start.moveTo 2).instructions 4 3 threePairs =
        .ok ⟨9, false, #[0, 0, 0xA9, 0x4C, 0x6C, 0x6C, 0x4C, 0xD0, 0xA9], Symbols.empty⟩ ∧
      threeInstructions = threePairs := by
  have hfirst : start.instructions 1 1 threeInstructions =
      .ok ⟨7, false, #[0xA9, 0x4C, 0x6C, 0x6C, 0x4C, 0xD0, 0xA9], Symbols.empty⟩ := by
    decide +kernel
  have hsecond : (start.moveTo 2).instructions 4 3 threePairs =
      .ok ⟨9, false, #[0, 0, 0xA9, 0x4C, 0x6C, 0x6C, 0x4C, 0xD0, 0xA9], Symbols.empty⟩ := by
    decide +kernel
  have hliteral : forall i, i ∈ threeInstructions -> i.IsLiteral := by decide +kernel
  have hliteral' : forall i, i ∈ threePairs -> i.IsLiteral := by decide +kernel
  exact ⟨hfirst, hsecond,
    instructions_unique hliteral hliteral' hfirst hsecond (by decide +kernel)⟩

end State
end Asm65
