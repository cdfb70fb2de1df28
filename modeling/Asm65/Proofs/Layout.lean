import Asm65.Assembler
import Asm65.Proofs.Image
import Asm65.Proofs.Outcome
import Asm65.Proofs.Reference

/-!
# The layout of a program

Where statements stand and what they put there can be said without a run of the assembler.
A fold over the statements counts addresses and collects labels: it starts at zero, a
statement moves it by its size, and an origin sets it.  The size of a statement does not
depend on where its labels are, so this fold needs no second look at anything.

Addresses are plain numbers.  The number `65536` is the place behind the last byte of
memory.
-/

namespace Asm65

/-!
# Statements by themselves
-/

/-- How many bytes a directive puts into memory.  A value of `data` above 255 takes two. -/
def Directive.size : Directive -> Nat
  | .data values => values.length + values.countP (255 < UInt16.toNat ·)
  | .bytes values => values.length
  | .words values => 2 * values.length
  | .origin _ => 0

/-- The label in an operand, and how it is encoded. -/
def Operand.reference? : Operand -> Option (RefKind × LabelRef)
  | .absolute (.label l) => some (.absolute, l)
  | .relative (.label l) => some (.relative, l)
  | .indirect (.label l) => some (.absolute, l)
  | _ => none

namespace Statement

/-- The address that the statement moves to, if it is an origin. -/
def origin? (st : Statement) : Option UInt16 :=
  match st.nucleus? with
  | some (.directive (.origin a)) => some a
  | _ => none

/-- How many bytes the statement puts into memory. -/
def size (st : Statement) : Nat :=
  match st.nucleus? with
  | none => 0
  | some (.directive d) => d.size
  | some (.instruction i) => i.size

/-- The label that the operand of the statement refers to, and how it is encoded. -/
def reference? (st : Statement) : Option (RefKind × LabelRef) :=
  match st.nucleus? with
  | some (.instruction i) => i.operand.reference?
  | _ => none

/-- The address behind the statement, if the statement itself stands at `p`. -/
def after (st : Statement) (p : Nat) : Nat :=
  match st.origin? with
  | some a => a.toNat
  | none => p + st.size

/-- The entry of the label that the statement defines at `p`. -/
def entries (st : Statement) (p : Nat) : List (String × Nat) :=
  st.label?.toList.map fun l => (l.name, p)

end Statement

theorem Operand.reference?_eq (operand : Operand) :
    operand.reference? =
      match operand.payload with
      | .literal _ => none
      | .reference kind l => some (kind, l) := by
  cases operand with
  | absolute t => cases t <;> rfl
  | relative b => cases b <;> rfl
  | indirect t => cases t <;> rfl
  | _ => rfl

/-- Operand bytes in the instruction at `start`; a label that is not in the table is left open. -/
def Payload.bytes (table : String -> Option Nat) (start : Nat) : Payload -> List UInt8
  | .literal bytes => bytes
  | .reference kind l =>
      match table l.name with
      | some target => kind.bytes target start
      | none => kind.placeholder

/-- The bytes of a statement that stands at `start`. -/
def Statement.code (st : Statement) (table : String -> Option Nat) (start : Nat) : List UInt8 :=
  match st.nucleus? with
  | none => []
  | some (.directive d) => d.emitted
  | some (.instruction i) => i.opcode :: i.operand.payload.bytes table start

/-!
# The bytes of a directive

What data becomes can be said by the numbers that its bytes stand for.
-/

namespace Directive

/-- The bytes of one value of `data`: a single one if it fits there, and two otherwise. -/
def IsDatum (v : UInt16) (bs : List UInt8) : Prop :=
  if v.toNat ≤ 255 then exists b : UInt8, bs = [b] ∧ b.toNat = v.toNat
  else LittleEndian v.toNat bs

def Emits : Directive -> List UInt8 -> Prop
  | .data values, bs => exists pieces, List.Forall₂ IsDatum values pieces ∧ bs = pieces.flatten
  | .bytes values, bs => bs = values
  | .words values, bs =>
      exists pieces, List.Forall₂ (fun v => LittleEndian v.toNat) values pieces ∧
        bs = pieces.flatten
  | .origin _, bs => bs = []

theorem lt_iff_fits {v : UInt16} : v < 256 <-> v.toNat ≤ 255 :=
  UInt16.lt_iff_toNat_lt.trans Nat.lt_succ_iff

theorem isDatum_iff {v : UInt16} {bs : List UInt8} :
    IsDatum v bs <-> (if v < 256 then [v.toUInt8] else wordBytes v) = bs := by
  unfold IsDatum
  simp only [lt_iff_fits]
  split
  · next hfits =>
      have hbyte : v.toUInt8.toNat = v.toNat := by
        rw [UInt16.toNat_toUInt8]
        omega
      constructor
      · rintro ⟨b, rfl, hvalue⟩
        rw [UInt8.toNat_inj.mp (hbyte.trans hvalue.symm)]
      · rintro rfl
        exact ⟨_, rfl, hbyte⟩
  · exact littleEndian_iff

/-- Values are encoded one by one, so their bytes are joined. -/
theorem exists_pieces_iff {R : UInt16 -> List UInt8 -> Prop} {f : UInt16 -> List UInt8}
    (h : forall v piece, R v piece <-> f v = piece) {values : List UInt16} {bs : List UInt8} :
    (exists pieces, List.Forall₂ R values pieces ∧ bs = pieces.flatten) <->
      values.flatMap f = bs := by
  simp only [forall₂_iff_map_eq h, exists_eq_left']
  exact eq_comm

theorem emits_iff {d : Directive} {bs : List UInt8} : d.Emits bs <-> d.emitted = bs := by
  cases d with
  | data values => exact exists_pieces_iff (R := IsDatum) fun v piece => isDatum_iff
  | words values =>
      exact exists_pieces_iff (R := fun v => LittleEndian v.toNat) fun v piece => littleEndian_iff
  | _ => exact eq_comm

theorem length_datum (v : UInt16) :
    (if v < 256 then [v.toUInt8] else wordBytes v).length = if 255 < v.toNat then 2 else 1 := by
  simp only [lt_iff_fits]
  by_cases hfits : v.toNat ≤ 255
  · rw [if_pos hfits, if_neg (Nat.not_lt_of_le hfits)]
    rfl
  · rw [if_neg hfits, if_pos (Nat.lt_of_not_le hfits)]
    rfl

theorem length_emitted (d : Directive) : d.emitted.length = d.size := by
  cases d with
  | data values =>
      rw [emitted, size]
      induction values with
      | nil => rfl
      | cons v values ih =>
          rw [List.flatMap_cons, List.length_append, length_datum, ih, List.length_cons,
            List.countP_cons]
          simp only [decide_eq_true_eq]
          split <;> omega
  | words values =>
      rw [emitted, size]
      induction values with
      | nil => rfl
      | cons v values ih =>
          rw [List.flatMap_cons, List.length_append, ih, List.length_cons, Nat.mul_succ,
            Nat.add_comm]
          rfl
  | _ => rfl

end Directive

theorem Payload.reference_bytes_length (kind : RefKind) (l : LabelRef)
    (table : String -> Option Nat) (start : Nat) :
    ((Payload.reference kind l).bytes table start).length = kind.width := by
  simp only [Payload.bytes]
  split
  · exact kind.bytes_length _ _
  · exact kind.placeholder_length

theorem Operand.payload_bytes_length (operand : Operand) (table : String -> Option Nat)
    (start : Nat) :
    (operand.payload.bytes table start).length = operand.mode.operandSize := by
  cases operand with
  | absolute t =>
      cases t with
      | address a => rfl
      | label l => exact Payload.reference_bytes_length .absolute l table start
  | relative b =>
      cases b with
      | offset d => rfl
      | label l => exact Payload.reference_bytes_length .relative l table start
  | indirect t =>
      cases t with
      | address a => rfl
      | label l => exact Payload.reference_bytes_length .absolute l table start
  | _ => rfl

namespace Statement

@[simp]
theorem code_length (st : Statement) (table : String -> Option Nat) (start : Nat) :
    (st.code table start).length = st.size := by
  unfold code size
  split
  · rfl
  · next d _ => exact d.length_emitted
  · next i _ =>
      rw [List.length_cons, i.operand.payload_bytes_length, Instruction.size]
      omega

theorem exists_instruction_of_reference {st : Statement} {kind : RefKind} {l : LabelRef}
    (h : st.reference? = some (kind, l)) :
    exists i, st.nucleus? = some (.instruction i) ∧
      i.operand.payload = .reference kind l := by
  unfold reference? at h
  split at h
  · next i hnucleus =>
      rw [Operand.reference?_eq] at h
      split at h
      · cases h
      · next hpayload =>
          cases h
          exact ⟨i, hnucleus, hpayload⟩
  · cases h

theorem reference?_of_instruction {st : Statement} {i : Instruction} {kind : RefKind}
    {l : LabelRef} (hnucleus : st.nucleus? = some (.instruction i))
    (hpayload : i.operand.payload = .reference kind l) :
    st.reference? = some (kind, l) := by
  simp only [reference?, hnucleus, Operand.reference?_eq, hpayload]

/-- Without a reference the code depends neither on labels nor on where it stands. -/
theorem code_of_no_reference {st : Statement} (h : st.reference? = none)
    (table table' : String -> Option Nat) (start start' : Nat) :
    st.code table start = st.code table' start' := by
  unfold code
  cases hnucleus : st.nucleus? with
  | none =>
      rfl
  | some nucleus =>
      cases nucleus with
      | directive d =>
          rfl
      | instruction i =>
          cases hpayload : i.operand.payload with
          | literal bytes =>
              simp only [hpayload, Payload.bytes]
          | reference kind l =>
              rw [reference?_of_instruction hnucleus hpayload] at h
              cases h

theorem size_of_reference {st : Statement} {kind : RefKind} {l : LabelRef}
    (h : st.reference? = some (kind, l)) : st.size = 1 + kind.width := by
  rcases exists_instruction_of_reference h with ⟨i, hnucleus, hpayload⟩
  have hlength := i.operand.payload_bytes_length (fun _ => none) 0
  rw [hpayload, Payload.reference_bytes_length] at hlength
  simp only [size, hnucleus, Instruction.size, hlength]

theorem code_of_origin {st : Statement} {a : UInt16} (h : st.origin? = some a)
    (table : String -> Option Nat) (start : Nat) : st.code table start = [] := by
  unfold origin? at h
  split at h
  · next hnucleus =>
      simp only [code, hnucleus, Directive.emitted]
  · cases h

theorem size_of_origin {st : Statement} {a : UInt16} (h : st.origin? = some a) :
    st.size = 0 := by
  rw [<- st.code_length (fun _ => none) 0, code_of_origin h, List.length_nil]

theorem origin?_of_reference {st : Statement} {kind : RefKind} {l : LabelRef}
    (h : st.reference? = some (kind, l)) : st.origin? = none := by
  rcases exists_instruction_of_reference h with ⟨i, hnucleus, _⟩
  simp only [origin?, hnucleus]

end Statement

/-!
# Encodings

Under a table of labels, the operand of an instruction at `start` has one encoding at most.
-/

def Target.Encodes (table : String -> Option Nat) : Target -> List UInt8 -> Prop
  | .address a, bytes => LittleEndian a.toNat bytes
  | .label l, bytes => exists target, table l.name = some target ∧ LittleEndian target bytes

def Branch.Encodes (table : String -> Option Nat) (start : Nat) : Branch -> List UInt8 -> Prop
  | .offset d, bytes => bytes = [d]
  | .label l, bytes =>
      exists target, table l.name = some target ∧ RefKind.relative.Denotes target start bytes

def Operand.Encodes (table : String -> Option Nat) (start : Nat) : Operand -> List UInt8 -> Prop
  | .implied, bytes => bytes = []
  | .accumulator, bytes => bytes = []
  | .immediate b, bytes => bytes = [b]
  | .zeroPage b, bytes => bytes = [b]
  | .zeroPageX b, bytes => bytes = [b]
  | .zeroPageY b, bytes => bytes = [b]
  | .absolute t, bytes => t.Encodes table bytes
  | .absoluteX w, bytes => LittleEndian w.toNat bytes
  | .absoluteY w, bytes => LittleEndian w.toNat bytes
  | .indirectX b, bytes => bytes = [b]
  | .indirectY b, bytes => bytes = [b]
  | .relative b, bytes => b.Encodes table start bytes
  | .indirect t, bytes => t.Encodes table bytes

/-- What a statement at `start` puts into memory. -/
def Statement.Encodes (table : String -> Option Nat) (start : Nat) (st : Statement)
    (bytes : List UInt8) : Prop :=
  match st.nucleus? with
  | none => bytes = []
  | some (.directive d) => d.Emits bytes
  | some (.instruction i) =>
      exists operand, i.operand.Encodes table start operand ∧ bytes = i.opcode :: operand

section Encodings

variable {table : String -> Option Nat} {start : Nat} {bytes : List UInt8}

def Payload.Encodes (table : String -> Option Nat) (start : Nat) : Payload -> List UInt8 -> Prop
  | .literal known, bytes => known = bytes
  | .reference kind l, bytes =>
      exists target, table l.name = some target ∧ kind.Denotes target start bytes

theorem Operand.encodes_iff {operand : Operand} :
    operand.Encodes table start bytes <-> operand.payload.Encodes table start bytes := by
  cases operand with
  | absolute t =>
      cases t with
      | address a => exact littleEndian_iff
      | label l => exact Iff.rfl
  | indirect t =>
      cases t with
      | address a => exact littleEndian_iff
      | label l => exact Iff.rfl
  | relative b =>
      cases b with
      | offset d => exact eq_comm
      | label l => exact Iff.rfl
  | absoluteX w => exact littleEndian_iff
  | absoluteY w => exact littleEndian_iff
  | _ => exact eq_comm

theorem Payload.encodes_iff {payload : Payload}
    (h : forall kind l, payload = .reference kind l ->
      exists target, table l.name = some target ∧
        kind.Denotes target start (payload.bytes table start)) :
    payload.Encodes table start bytes <-> payload.bytes table start = bytes := by
  cases payload with
  | literal known => exact Iff.rfl
  | reference kind l =>
      rcases h kind l rfl with ⟨target, htarget, hdenotes⟩
      constructor
      · rintro ⟨target', htarget', hdenotes'⟩
        rw [htarget] at htarget'
        cases htarget'
        exact hdenotes.unique hdenotes'
      · rintro rfl
        exact ⟨target, htarget, hdenotes⟩

/-- If its label can be reached, then a statement has exactly one encoding. -/
theorem Statement.encodes_iff {st : Statement}
    (h : forall kind l, st.reference? = some (kind, l) ->
      exists target, table l.name = some target ∧
        kind.Denotes target start (st.code table start).tail) :
    st.Encodes table start bytes <-> st.code table start = bytes := by
  unfold Encodes
  cases hnucleus : st.nucleus? with
  | none =>
      simp only [code, hnucleus]
      exact eq_comm
  | some nucleus =>
      cases nucleus with
      | directive d => simp only [code, hnucleus, Directive.emits_iff]
      | instruction i =>
          have hcode : st.code table start = i.opcode :: i.operand.payload.bytes table start := by
            simp only [code, hnucleus]
          have hpayload : forall kind l, i.operand.payload = .reference kind l ->
              exists target, table l.name = some target ∧
                kind.Denotes target start (i.operand.payload.bytes table start) := by
            intro kind l hl
            rw [hcode] at h
            exact h kind l (reference?_of_instruction hnucleus hl)
          simp only [Operand.encodes_iff, Payload.encodes_iff hpayload, exists_eq_left', hcode]
          exact eq_comm

end Encodings

/-!
# Sites

A site is a statement together with how far the fold had come when it reached the
statement.
-/

/-- How far the fold has come: the next address, and the labels so far, the latest first. -/
structure Cursor where
  address : Nat
  labels : List (String × Nat)
  deriving DecidableEq

namespace Cursor

def start : Cursor :=
  ⟨0, []⟩

def next (c : Cursor) (st : Statement) : Cursor :=
  ⟨st.after c.address, st.entries c.address ++ c.labels⟩

def run (c : Cursor) (sts : List Statement) : Cursor :=
  sts.foldl next c

def table (c : Cursor) (name : String) : Option Nat :=
  c.labels.lookup name

theorem run_cons (c : Cursor) (st : Statement) (sts : List Statement) :
    c.run (st :: sts) = (c.next st).run sts := rfl

end Cursor

structure Site where
  cursor : Cursor
  statement : Statement
  deriving DecidableEq

namespace Site

/-- The address of the statement. -/
def start (q : Site) : Nat :=
  q.cursor.address

/-- The labels that are defined on the line of the statement or on an earlier one. -/
def known (q : Site) : String -> Option Nat :=
  (q.cursor.next q.statement).table

/-- The reference of the statement, if its label is only defined on a later line. -/
def deferred? (q : Site) : Option (RefKind × LabelRef) :=
  q.statement.reference?.filter fun r => (q.known r.2.name).isNone

theorem deferred?_eq_some_iff {q : Site} {kind : RefKind} {l : LabelRef} :
    q.deferred? = some (kind, l) <->
      q.statement.reference? = some (kind, l) ∧ q.known l.name = none := by
  unfold deferred?
  rw [Option.filter_eq_some_iff, Option.isNone_iff_eq_none]

def code (q : Site) (table : String -> Option Nat) : List UInt8 :=
  q.statement.code table q.start

def write (table : String -> Option Nat) (q : Site) : Write :=
  ⟨q.start, q.code table⟩

/-- The operand alone, as a write to memory, if its label is only defined on a later line. -/
def patch? (table : String -> Option Nat) (q : Site) : Option Write :=
  q.deferred?.map fun _ => ⟨q.start + 1, (q.code table).tail⟩

/--
The length that memory needs for the statement: an origin needs all below its address, and
a statement that emits anything needs all below its end.
-/
def reach (q : Site) : Nat :=
  match q.statement.origin? with
  | some a => a.toNat
  | none => if q.statement.size = 0 then 0 else q.start + q.statement.size

end Site

namespace Layout

def sitesFrom (c : Cursor) : List Statement -> List Site
  | [] => []
  | st :: sts => ⟨c, st⟩ :: sitesFrom (c.next st) sts

def sites (sts : List Statement) : List Site :=
  sitesFrom .start sts

/-- The length of memory that holds every site. -/
def extent (qs : List Site) : Nat :=
  (qs.map Site.reach).foldr max 0

/--
The byte that sites leave at an address.  Operands whose labels come later are put into
memory behind all of the statements.  An address that nothing covers is zero.
-/
def byteAt (qs : List Site) (table : String -> Option Nat) (a : Nat) : UInt8 :=
  ((Write.last? (qs.filterMap (Site.patch? table)) a).or
    (Write.last? (qs.map (Site.write table)) a)).getD 0

end Layout
end Asm65
