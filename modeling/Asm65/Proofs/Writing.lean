import Asm65.Proofs.Layout
import Asm65.Proofs.Outcome

/-!
# Writing to memory

A state is compared with the layout through its cursor: the program counter as a plain
number, with `65536` for a counter that has run past the end of memory, and the labels
that are defined so far.  Every part of an instruction is described in the same two ways:
when it can be written, and what has changed once it is.
-/

namespace Asm65
namespace State

/-- The program counter as a plain number. -/
def counter (s : State) : Nat :=
  if s.overflowed then 65536 else s.pc.toNat

/-- What the layout can see of a state. -/
def cursor (s : State) : Cursor :=
  ⟨s.counter, s.symbols.labels.map fun e => (e.1, e.2.toNat)⟩

theorem counter_le (s : State) : s.counter ≤ 65536 := by
  unfold counter
  split
  · exact Nat.le_refl _
  · exact Nat.le_of_lt s.pc.toNat_lt

theorem counter_of_overflowed {s : State} (h : s.overflowed = true) : s.counter = 65536 := by
  simp [counter, h]

theorem counter_of_not_overflowed {s : State} (h : s.overflowed = false) :
    s.counter = s.pc.toNat := by
  simp [counter, h]

theorem counter_lt_iff {s : State} : s.counter < 65536 <-> s.overflowed = false := by
  have hlt := s.pc.toNat_lt
  cases h : s.overflowed with
  | true => simp [counter_of_overflowed h]
  | false => simpa [counter_of_not_overflowed h] using hlt

/-!
# Writing

Bytes that are written show in the image and in the counter, and leave the labels alone.
-/

/-- A counter that has run past the end of memory is zero. -/
def Wraps (s : State) : Prop :=
  s.overflowed = true -> s.pc = 0

/-- The way from `s` to `t` writes `bytes` and queues the references `waiting`. -/
structure Writes (s t : State) (bytes : List UInt8) (waiting : List Fixup) : Prop where
  wraps : s.Wraps -> t.Wraps
  counter : t.counter = s.counter + bytes.length
  image : t.image = s.image.storeAll s.counter bytes
  labels : t.symbols.labels = s.symbols.labels
  pending : t.symbols.pending.toList = s.symbols.pending.toList ++ waiting

theorem Writes.refl (s : State) : Writes s s [] [] := by
  constructor
  · exact id
  · rfl
  · rfl
  · rfl
  · exact (List.append_nil _).symm

theorem Writes.trans {s t u : State} {bs cs : List UInt8} {fs gs : List Fixup}
    (hst : Writes s t bs fs) (htu : Writes t u cs gs) : Writes s u (bs ++ cs) (fs ++ gs) := by
  constructor
  · exact fun h => htu.wraps (hst.wraps h)
  · rw [htu.counter, hst.counter, List.length_append]
    omega
  · rw [htu.image, hst.image, hst.counter, Image.storeAll_append]
  · rw [htu.labels, hst.labels]
  · rw [htu.pending, hst.pending, List.append_assoc]

theorem emit_eq_ok_iff {s t : State} {b : UInt8} :
    s.emit b = .ok t <-> s.overflowed = false ∧
      t = { s with
        pc := s.pc + 1
        overflowed := s.pc == 0xFFFF
        image := s.image.store s.pc.toNat b } := by
  unfold emit
  cases s.overflowed with
  | true => simp
  | false => simpa using eq_comm

theorem writes_of_emit {s t : State} {b : UInt8} (h : s.emit b = .ok t) :
    Writes s t [b] [] := by
  rcases emit_eq_ok_iff.mp h with ⟨hin, rfl⟩
  have hpc := counter_of_not_overflowed hin
  constructor
  · intro _ hlast
    have hmax : s.pc = 0xFFFF := beq_iff_eq.mp hlast
    change s.pc + 1 = 0
    rw [hmax]
    rfl
  · -- behind the last byte the counter is zero again, and the flag speaks for it
    by_cases hlast : s.pc = 0xFFFF
    · simp [counter, hin, hlast]
    · have hne : s.pc.toNat ≠ 65535 := by
        intro heq
        exact hlast (UInt16.toNat_inj.mp heq)
      have hlt := s.pc.toNat_lt
      simp only [counter, beq_iff_eq, hlast, if_false, hin, UInt16.toNat_add, UInt16.toNat_one,
        List.length_singleton, Bool.false_eq_true]
      omega
  · rw [hpc]
    rfl
  · rfl
  · exact (List.append_nil _).symm

theorem counter_of_emit {s t : State} {b : UInt8} (h : s.emit b = .ok t) :
    t.counter = s.counter + 1 :=
  (writes_of_emit h).counter

theorem writes_of_emitAll {s t : State} {bs : List UInt8} (h : s.emitAll bs = .ok t) :
    Writes s t bs [] := by
  induction bs generalizing s with
  | nil =>
      have hst : s = t := foldlM_nil_eq_ok_iff.mp h
      subst hst
      exact Writes.refl s
  | cons b bs ih =>
      rcases foldlM_cons_eq_ok_iff.mp h with ⟨u, hu, ht⟩
      exact (writes_of_emit hu).trans (ih ht)

theorem exists_emit_iff {s : State} {b : UInt8} :
    (exists t, s.emit b = .ok t) <-> s.counter + 1 ≤ 65536 := by
  have hlt : s.counter + 1 ≤ 65536 <-> s.overflowed = false := counter_lt_iff
  rw [hlt]
  constructor
  · intro h
    rcases h with ⟨t, ht⟩
    exact (emit_eq_ok_iff.mp ht).left
  · intro h
    exact ⟨_, emit_eq_ok_iff.mpr ⟨h, rfl⟩⟩

theorem exists_emitAll_iff {s : State} {bs : List UInt8} :
    (exists t, s.emitAll bs = .ok t) <-> s.counter + bs.length ≤ 65536 := by
  induction bs generalizing s with
  | nil =>
      constructor
      · intro _
        exact s.counter_le
      · intro _
        exact ⟨s, foldlM_nil_eq_ok_iff.mpr rfl⟩
  | cons b bs ih =>
      rw [List.length_cons]
      constructor
      · intro h
        rcases h with ⟨t, ht⟩
        rcases foldlM_cons_eq_ok_iff.mp ht with ⟨u, hu, hrest⟩
        have hcounter := counter_of_emit hu
        have hfits := ih.mp ⟨t, hrest⟩
        omega
      · intro h
        have hfirst : s.counter + 1 ≤ 65536 := by omega
        rcases exists_emit_iff.mpr hfirst with ⟨u, hu⟩
        have hcounter := counter_of_emit hu
        have hfits : u.counter + bs.length ≤ 65536 := by omega
        rcases ih.mpr hfits with ⟨t, ht⟩
        exact ⟨t, foldlM_cons_eq_ok_iff.mpr ⟨u, hu, ht⟩⟩

end State

/-!
# Symbols
-/

def Symbols.table (t : Symbols) (name : String) : Option Nat :=
  (t.address? name).map UInt16.toNat

/-- Addresses as plain numbers do not make two labels one. -/
theorem toNat_entry_injective :
    Function.Injective fun e : String × UInt16 => (e.1, e.2.toNat) := by
  intro e e' h
  rw [Prod.mk.injEq] at h
  exact Prod.ext h.left (UInt16.toNat_inj.mp h.right)

namespace State

theorem lookup_map_snd {α β : Type} (f : α -> β) (es : List (String × α)) (name : String) :
    (es.map fun e => (e.1, f e.2)).lookup name = (es.lookup name).map f := by
  induction es with
  | nil =>
      rfl
  | cons e es ih =>
      rcases e with ⟨key, value⟩
      simp only [List.map_cons, List.lookup_cons, ih]
      split <;> rfl

theorem cursor_table (s : State) : s.cursor.table = s.symbols.table := by
  funext name
  exact lookup_map_snd UInt16.toNat s.symbols.labels name

theorem cursor_eq_of_writes {s t : State} {bs : List UInt8} {fs : List Fixup}
    (h : Writes s t bs fs) :
    t.cursor = ⟨s.cursor.address + bs.length, s.cursor.labels⟩ := by
  simp only [cursor, h.counter, h.labels]

theorem define_eq_ok_iff {s t : State} {line : Nat} {l : LabelRef} :
    s.define line l = .ok t <->
      s.counter < 65536 ∧ s.cursor.table l.name = none ∧
        t = { s with symbols := s.symbols.define l.name s.pc } := by
  rw [counter_lt_iff, cursor_table, Symbols.table, Option.map_eq_none_iff]
  unfold define
  cases s.overflowed with
  | true => simp
  | false =>
      cases s.symbols.address? l.name with
      | some a => simp
      | none => simpa using eq_comm

end State

/-!
# Operands
-/

/-- The references that an operand at `offset` leaves waiting. -/
def Payload.waiting (table : String -> Option Nat) (line : Nat) (offset : UInt16) :
    Payload -> List Fixup
  | .literal _ => []
  | .reference kind l =>
      match table l.name with
      | some _ => []
      | none => [⟨l, line, offset, kind⟩]

/-- An operand in the instruction at `start` reaches its label, as far as that is known. -/
def Payload.Reaches (table : String -> Option Nat) (start : Nat) : Payload -> Prop
  | .literal _ => True
  | .reference kind l => forall target, table l.name = some target -> kind.Reaches target start

namespace State

theorem operand_literal_eq_ok_iff {s t : State} {line token : Nat} {bs : List UInt8} :
    s.operand line token (.literal bs) = .ok t <-> s.emitAll bs = .ok t :=
  located_eq_ok_iff

theorem operand_known_eq_ok_iff {s t : State} {line token : Nat} {kind : RefKind}
    {l : LabelRef} {target : UInt16} (h : s.symbols.address? l.name = some target) :
    s.operand line token (.reference kind l) = .ok t <->
      kind.Reaches target.toNat (s.pc - 1).toNat ∧
        s.emitAll (kind.bytes target.toNat (s.pc - 1).toNat) = .ok t := by
  simp only [operand, h, bind_eq_ok_iff, located_eq_ok_iff, RefKind.encode_eq_ok_iff]
  constructor
  · intro hok
    rcases hok with ⟨bs, ⟨hreach, rfl⟩, hemit⟩
    exact ⟨hreach, hemit⟩
  · intro hok
    exact ⟨_, ⟨hok.left, rfl⟩, hok.right⟩

theorem operand_unknown_eq_ok_iff {s t : State} {line token : Nat} {kind : RefKind}
    {l : LabelRef} (h : s.symbols.address? l.name = none) :
    s.operand line token (.reference kind l) = .ok t <->
      (s.defer line l kind).emitAll kind.placeholder = .ok t := by
  simp only [operand, h, located_eq_ok_iff]

theorem writes_defer (s : State) (line : Nat) (l : LabelRef) (kind : RefKind) :
    Writes s (s.defer line l kind) [] [⟨l, line, s.pc, kind⟩] := by
  constructor
  · exact id
  · rfl
  · rfl
  · rfl
  · exact Array.toList_push

theorem exists_operand_iff {s : State} {line token : Nat} {p : Payload} :
    (exists t, s.operand line token p = .ok t) <->
      p.Reaches s.cursor.table (s.pc - 1).toNat ∧
        s.counter + (p.bytes s.cursor.table (s.pc - 1).toNat).length ≤ 65536 := by
  cases p with
  | literal bs =>
      simp only [operand_literal_eq_ok_iff, exists_emitAll_iff, Payload.Reaches, Payload.bytes,
        true_and]
  | reference kind l =>
      rw [Payload.reference_bytes_length]
      cases haddress : s.symbols.address? l.name with
      | some target =>
          simp only [operand_known_eq_ok_iff haddress, exists_and_left, exists_emitAll_iff,
            RefKind.bytes_length, Payload.Reaches, cursor_table, Symbols.table, haddress,
            Option.map_some, Option.some.injEq, forall_eq']
      | none =>
          have hcounter := (writes_defer s line l kind).counter
          simp only [operand_unknown_eq_ok_iff haddress, exists_emitAll_iff, hcounter,
            RefKind.placeholder_length, Payload.Reaches, cursor_table, Symbols.table, haddress,
            Option.map_none, List.length_nil, Nat.add_zero, reduceCtorEq, false_implies,
            implies_true, true_and]

theorem writes_of_operand {s t : State} {line token : Nat} {p : Payload}
    (h : s.operand line token p = .ok t) :
    Writes s t (p.bytes s.cursor.table (s.pc - 1).toNat)
      (p.waiting s.cursor.table line s.pc) := by
  cases p with
  | literal bs =>
      exact writes_of_emitAll (operand_literal_eq_ok_iff.mp h)
  | reference kind l =>
      cases haddress : s.symbols.address? l.name with
      | some target =>
          have hemit := ((operand_known_eq_ok_iff haddress).mp h).right
          simpa [Payload.bytes, Payload.waiting, cursor_table, Symbols.table, haddress] using
            writes_of_emitAll hemit
      | none =>
          have hemit := (operand_unknown_eq_ok_iff haddress).mp h
          have hboth := (writes_defer s line l kind).trans (writes_of_emitAll hemit)
          simpa [Payload.bytes, Payload.waiting, cursor_table, Symbols.table, haddress] using
            hboth

/-!
# Instructions
-/

theorem pc_of_emit {s t : State} {b : UInt8} (h : s.emit b = .ok t) :
    t.pc = UInt16.ofNat (s.counter + 1) ∧ (t.pc - 1).toNat = s.counter := by
  rcases emit_eq_ok_iff.mp h with ⟨hin, rfl⟩
  rw [counter_of_not_overflowed hin]
  constructor
  · rw [UInt16.ofNat_add, UInt16.ofNat_toNat]
    rfl
  · rw [UInt16.add_sub_cancel]

theorem cursor_table_of_emit {s t : State} {b : UInt8} (h : s.emit b = .ok t) :
    t.cursor.table = s.cursor.table := by
  rw [cursor_eq_of_writes (writes_of_emit h)]
  rfl

theorem exists_instruction_iff {s : State} {line token : Nat} {i : Instruction} :
    (exists t, s.instruction line token i = .ok t) <->
      i.operand.payload.Reaches s.cursor.table s.counter ∧ s.counter + i.size ≤ 65536 := by
  have hsize : forall u, s.emit i.opcode = .ok u ->
      u.counter + (i.operand.payload.bytes u.cursor.table (u.pc - 1).toNat).length =
        s.counter + i.size := by
    intro u hu
    rw [counter_of_emit hu, i.operand.payload_bytes_length, Instruction.size]
    omega
  simp only [instruction, bind_eq_ok_iff, located_eq_ok_iff]
  constructor
  · intro h
    rcases h with ⟨t, u, hu, ht⟩
    have hoperand := exists_operand_iff.mp ⟨t, ht⟩
    rw [hsize u hu, (pc_of_emit hu).right, cursor_table_of_emit hu] at hoperand
    exact hoperand
  · intro h
    have hfirst : s.counter + 1 ≤ 65536 := by
      have hfits := h.right
      rw [Instruction.size] at hfits
      omega
    rcases exists_emit_iff.mpr hfirst with ⟨u, hu⟩
    rw [<- hsize u hu, <- (pc_of_emit hu).right, <- cursor_table_of_emit hu] at h
    rcases exists_operand_iff.mpr h with ⟨t, ht⟩
    exact ⟨t, u, hu, ht⟩

theorem writes_of_instruction {s t : State} {line token : Nat} {i : Instruction}
    (h : s.instruction line token i = .ok t) :
    Writes s t (i.opcode :: i.operand.payload.bytes s.cursor.table s.counter)
      (i.operand.payload.waiting s.cursor.table line (UInt16.ofNat (s.counter + 1))) := by
  simp only [instruction, bind_eq_ok_iff, located_eq_ok_iff] at h
  rcases h with ⟨u, hu, ht⟩
  have hoperand := writes_of_operand ht
  rw [(pc_of_emit hu).right, (pc_of_emit hu).left, cursor_table_of_emit hu] at hoperand
  exact (writes_of_emit hu).trans hoperand

end State

end Asm65
