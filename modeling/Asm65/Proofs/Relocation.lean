import Asm65.Proofs.Blocks
import Asm65.Proofs.Failure
import Mathlib

/-!
# Programs at another address

A program without origins is laid out from address zero up.  An origin in front of it moves
every statement and every label up by the same distance.  A branch does not notice, because
it holds a difference of addresses; an operand that holds an address grows by the distance.
The only new failure is that the program passes the end of memory.
-/

namespace Asm65

/-!
# Moving a layout
-/

theorem RefKind.distance_add (a target start : Nat) :
    distance (a + target) (a + start) = distance target start := by
  unfold distance
  omega

theorem RefKind.reaches_add_iff {kind : RefKind} {a target start : Nat} :
    kind.Reaches (a + target) (a + start) <-> kind.Reaches target start := by
  cases kind with
  | absolute => exact Iff.rfl
  | relative => rw [Reaches, Reaches, distance_add]

theorem Write.byte?_add (a p i : Nat) (bytes : List UInt8) :
    byte? ⟨a + p, bytes⟩ (a + i) = byte? ⟨p, bytes⟩ i := by
  simp only [byte?, Nat.add_le_add_iff_left, Nat.add_sub_add_left]

theorem Symbols.lt_of_table {t : Symbols} {name : String} {target : Nat}
    (h : t.table name = some target) : target < 65536 := by
  rcases Option.map_eq_some_iff.mp h with ⟨address, _, rfl⟩
  exact address.toNat_lt

namespace Cursor

/-- The cursor with its address and all labels `a` higher. -/
def moveUp (a : Nat) (c : Cursor) : Cursor :=
  ⟨a + c.address, c.labels.map fun e => (e.1, a + e.2)⟩

theorem table_moveUp (a : Nat) (c : Cursor) (name : String) :
    (c.moveUp a).table name = (c.table name).map (a + ·) :=
  State.lookup_map_snd (a + ·) c.labels name

theorem next_moveUp {st : Statement} (h : st.origin? = none) (a : Nat) (c : Cursor) :
    (c.moveUp a).next st = (c.next st).moveUp a := by
  simp only [next, moveUp, Statement.after, h, Statement.entries, List.map_append, List.map_map,
    Nat.add_assoc]
  rfl

theorem run_moveUp {sts : List Statement} (h : forall st, st ∈ sts -> st.origin? = none)
    (a : Nat) (c : Cursor) : (c.moveUp a).run sts = (c.run sts).moveUp a := by
  induction sts generalizing c with
  | nil =>
      rfl
  | cons st sts ih =>
      rw [List.forall_mem_cons] at h
      rw [run_cons, run_cons, next_moveUp h.left, ih h.right]

end Cursor

namespace Statement

/-- A branch holds no address, whether it names a label or not. -/
theorem reference?_ne_of_relative {st : Statement} {i : Instruction}
    (hnucleus : st.nucleus? = some (.instruction i)) (hmode : i.operand.mode = .relative)
    (l : LabelRef) : st.reference? ≠ some (.absolute, l) := by
  intro hreference
  rcases exists_instruction_of_reference hreference with ⟨i', hnucleus', hpayload⟩
  rw [hnucleus] at hnucleus'
  cases hnucleus'
  cases hoperand : i.operand with
  | relative b =>
      rw [hoperand] at hpayload
      cases b <;> cases hpayload
  | _ =>
      rw [hoperand] at hmode
      cases hmode

theorem nucleus?_of_origin {st : Statement} {a : UInt16} (h : st.origin? = some a) :
    st.nucleus? = some (.directive (.origin a)) := by
  unfold origin? at h
  split at h
  · next hnucleus =>
      cases h
      exact hnucleus
  · cases h

/-- Only the directive itself makes a statement an origin. -/
theorem origin?_of_derivesLine {ts : List Token} {st : Statement}
    (h : Grammar.DerivesLine ts st.label? st.nucleus?) (hts : Token.directive "ORG" ∉ ts) :
    st.origin? = none := by
  cases horigin : st.origin? with
  | none =>
      rfl
  | some a =>
      rw [nucleus?_of_origin horigin] at h
      generalize st.label? = label? at h
      cases h with
      | labelled hnucleus =>
          cases hnucleus with
          | directive hdirective =>
              cases hdirective
              simp at hts
      | bare hnucleus =>
          cases hnucleus with
          | directive hdirective =>
              cases hdirective
              simp at hts

theorem origin?_of_reads {ls : List TokenLine} {sts : List Statement} (h : Reads ls sts)
    (hls : forall l, l ∈ ls -> Token.directive "ORG" ∉ l.tokens) :
    forall st, st ∈ sts -> st.origin? = none := by
  induction h with
  | nil =>
      intro st hst
      cases hst
  | cons hline _ ih =>
      rw [List.forall_mem_cons] at hls ⊢
      have htokens := mapError_eq_ok_iff.mp hline
      exact ⟨origin?_of_derivesLine (derivesLine_of_ofTokens htokens) hls.left, ih hls.right⟩

end Statement

namespace Site

def moveUp (a : Nat) (q : Site) : Site :=
  ⟨q.cursor.moveUp a, q.statement⟩

@[simp]
theorem statement_moveUp (a : Nat) (q : Site) : (q.moveUp a).statement = q.statement := rfl

@[simp]
theorem start_moveUp (a : Nat) (q : Site) : (q.moveUp a).start = a + q.start := rfl

theorem known_moveUp {q : Site} (h : q.statement.origin? = none) (a : Nat) (name : String) :
    (q.moveUp a).known name = (q.known name).map (a + ·) := by
  have hnext := Cursor.next_moveUp h a q.cursor
  unfold known moveUp
  rw [hnext, Cursor.table_moveUp]

theorem covers_moveUp_iff {a i : Nat} {q : Site} :
    (q.moveUp a).Covers (a + i) <-> q.Covers i := by
  simp only [Covers, start_moveUp, statement_moveUp]
  omega

/-!
## Faults

A label that is fresh stays fresh, and a label within reach stays within reach.  So a site
that has no fault gets none by moving it, unless it passes the end of memory.
-/

theorem duplicate?_moveUp {q : Site} (h : q.duplicate? = none) (a : Nat) :
    (q.moveUp a).duplicate? = none := by
  unfold duplicate? at h ⊢
  rw [statement_moveUp]
  cases hlabel : q.statement.label? with
  | none =>
      rfl
  | some l =>
      have htable : q.cursor.table l.name = none := by simpa [hlabel] using h
      simp [moveUp, Cursor.table_moveUp, htable]

theorem outOfReach?_moveUp {q : Site} (horigin : q.statement.origin? = none)
    (h : q.outOfReach? = none) (a : Nat) : (q.moveUp a).outOfReach? = none := by
  rw [outOfReach?_eq_none_iff] at h ⊢
  intro kind l target hreference hknown
  rw [known_moveUp horigin] at hknown
  rcases Option.map_eq_some_iff.mp hknown with ⟨found, hfound, rfl⟩
  exact RefKind.reaches_add_iff.mpr (h kind l found hreference hfound)

theorem pcOverflow_of_fault_moveUp {q : Site} {a : Nat} {e : StatementError}
    (horigin : q.statement.origin? = none) (hq : q.fault? = none)
    (h : (q.moveUp a).fault? = some e) : e.kind = .pcOverflow := by
  simp only [fault?, labelFault?, nucleusFault?, Option.or_eq_none_iff] at hq
  rcases hq with ⟨⟨_, hduplicate⟩, ⟨_, hreach⟩, _⟩
  simp only [fault?, labelFault?, nucleusFault?, Option.or_eq_some_iff,
    duplicate?_moveUp hduplicate, outOfReach?_moveUp horigin hreach, reduceCtorEq, and_false,
    or_false] at h
  rcases h with hlabel | ⟨_, hopcode | ⟨_, hbytes⟩⟩
  · rcases Option.bind_eq_some_iff.mp hlabel with ⟨l, _, hstop⟩
    rw [eq_of_pastEnd hstop]
  · unfold opcodeOverflow? at hopcode
    split at hopcode
    · rw [eq_of_pastEnd hopcode]
    · cases hopcode
  · rw [eq_of_pastEnd hbytes]

theorem admissible_moveUp {q : Site} {a : Nat} (horigin : q.statement.origin? = none)
    (hq : q.Admissible) (hfits : a + (q.start + q.statement.size) < 65536) :
    (q.moveUp a).Admissible := by
  constructor
  · rw [start_moveUp, statement_moveUp, Nat.add_assoc]
    exact Nat.le_of_lt hfits
  · intro l hl
    constructor
    · rw [start_moveUp]
      omega
    · rw [moveUp, Cursor.table_moveUp, (hq.fresh l hl).right]
      rfl
  · have hreach := outOfReach?_eq_none_iff.mpr hq.reaches
    exact outOfReach?_eq_none_iff.mp (outOfReach?_moveUp horigin hreach a)

/-!
## Bytes
-/

theorem reach_moveUp {q : Site} (h : q.statement.origin? = none) (a : Nat) :
    max a (q.moveUp a).reach = a + q.reach := by
  by_cases hsize : q.statement.size = 0
  · simp [reach, h, hsize]
  · have hreach : q.reach = q.start + q.statement.size := by simp [reach, h, hsize]
    have hmoved : (q.moveUp a).reach = a + q.start + q.statement.size := by
      simp [reach, h, hsize]
    omega

/-- The address is one of an operand that holds the address of a label. -/
def HoldsAddress (i : Nat) (q : Site) : Prop :=
  (exists l, q.statement.reference? = some (.absolute, l)) ∧ q.start < i ∧ q.Covers i

/-- Only the address of a label changes with the place of a statement. -/
theorem code_moveUp {q : Site} {a : Nat} {table table' : String -> Option Nat}
    (htable : forall name, table' name = (table name).map (a + ·))
    (h : forall l, q.statement.reference? ≠ some (.absolute, l)) :
    (q.moveUp a).code table' = q.code table := by
  cases hreference : q.statement.reference? with
  | none =>
      exact Statement.code_of_no_reference hreference table' table _ _
  | some r =>
      rcases r with ⟨kind, l⟩
      rcases Statement.exists_instruction_of_reference hreference with ⟨i, hnucleus, hpayload⟩
      simp only [code, Statement.code, statement_moveUp, start_moveUp, hnucleus, hpayload,
        Payload.bytes, htable]
      cases kind with
      | absolute => exact absurd hreference (h l)
      | relative =>
          cases table l.name with
          | none => rfl
          | some target =>
              simp only [Option.map_some, RefKind.bytes, RefKind.distance_add]

theorem code_absolute {q : Site} {l : LabelRef} {table : String -> Option Nat} {target : Nat}
    (hreference : q.statement.reference? = some (.absolute, l))
    (htarget : table l.name = some target) (hlt : target < 65536) :
    exists opcode low high, q.code table = [opcode, low, high] ∧
      low.toNat + 256 * high.toNat = target := by
  rcases code_of_reference hreference with ⟨opcode, hcode⟩
  rcases wordBytes_value (UInt16.ofNat target) with ⟨low, high, hbytes, hvalue⟩
  refine ⟨opcode, low, high, ?_, ?_⟩
  · rw [hcode, Payload.bytes, htarget, <- hbytes]
    rfl
  · rw [hvalue, UInt16.toNat_ofNat_of_lt' hlt]

theorem byte?_moveUp {q : Site} {a i : Nat} {table table' : String -> Option Nat}
    (htable : forall name, table' name = (table name).map (a + ·)) (hcovers : q.Covers i)
    (h : ¬ q.HoldsAddress i) :
    ((q.moveUp a).write table').byte? (a + i) = (q.write table).byte? i := by
  by_cases habsolute : exists l, q.statement.reference? = some (.absolute, l)
  · -- of such an instruction only the opcode is left
    have hstart : i = q.start :=
      Nat.le_antisymm (Nat.le_of_not_lt fun hlt => h ⟨habsolute, hlt, hcovers⟩) hcovers.left
    rcases habsolute with ⟨l, hreference⟩
    rcases Statement.exists_instruction_of_reference hreference with ⟨instr, hnucleus, _⟩
    simp only [write, code, Statement.code, statement_moveUp, start_moveUp, hnucleus,
      Write.byte?_cons, hstart, if_true]
  · have hcode := code_moveUp htable fun l hreference => habsolute ⟨l, hreference⟩
    rw [write, write, hcode, start_moveUp, Write.byte?_add]

end Site

namespace Layout

theorem sitesFrom_moveUp {sts : List Statement} (h : forall st, st ∈ sts -> st.origin? = none)
    (a : Nat) (c : Cursor) :
    sitesFrom (c.moveUp a) sts = (sitesFrom c sts).map (Site.moveUp a) := by
  induction sts generalizing c with
  | nil =>
      rfl
  | cons st sts ih =>
      rw [List.forall_mem_cons] at h
      rw [sitesFrom, sitesFrom, Cursor.next_moveUp h.left, ih h.right]
      rfl

theorem extent_moveUp {qs : List Site} (h : forall q, q ∈ qs -> q.statement.origin? = none)
    (a : Nat) : max a (extent (qs.map (Site.moveUp a))) = a + extent qs := by
  induction qs with
  | nil =>
      exact Nat.max_eq_left (Nat.zero_le a)
  | cons q qs ih =>
      rw [List.forall_mem_cons] at h
      have hq := Site.reach_moveUp h.left a
      have hrest := ih h.right
      change max a (max (q.moveUp a).reach (extent (qs.map (Site.moveUp a)))) =
        a + max q.reach (extent qs)
      omega

/-!
## Statements one behind the other
-/

/-- Without origins, addresses only go up. -/
theorem le_start_of_no_origin {c : Cursor} {sts : List Statement}
    (h : forall st, st ∈ sts -> st.origin? = none) :
    forall q, q ∈ sitesFrom c sts -> c.address ≤ q.start := by
  induction sts generalizing c with
  | nil =>
      intro q hq
      cases hq
  | cons st sts ih =>
      rw [List.forall_mem_cons] at h
      rw [sitesFrom, List.forall_mem_cons]
      refine ⟨Nat.le_refl _, ?_⟩
      intro q hq
      have hle := ih h.right q hq
      simp only [Cursor.next, Statement.after, h.left] at hle
      omega

theorem disjoint_of_no_origin {c : Cursor} {sts : List Statement}
    (h : forall st, st ∈ sts -> st.origin? = none) : Disjoint (sitesFrom c sts) := by
  induction sts generalizing c with
  | nil =>
      exact List.Pairwise.nil
  | cons st sts ih =>
      rw [List.forall_mem_cons] at h
      refine List.Pairwise.cons ?_ (ih h.right)
      intro r hr
      have hle := le_start_of_no_origin h.right r hr
      simp only [Cursor.next, Statement.after, h.left] at hle
      exact Site.apart_iff.mpr (Or.inr (Or.inr (Or.inl hle)))

/-- No statement begins behind the memory that the statements need. -/
theorem start_le_extent (c : Cursor) (sts : List Statement) :
    forall q, q ∈ sitesFrom c sts -> q.start ≤ max c.address (extent (sitesFrom c sts)) := by
  induction sts generalizing c with
  | nil =>
      intro q hq
      cases hq
  | cons st sts ih =>
      rw [sitesFrom, List.forall_mem_cons]
      refine ⟨Nat.le_max_left _ _, ?_⟩
      intro q hq
      have hle := ih (c.next st) q hq
      have hafter := Site.after_le ⟨c, st⟩
      change (c.next st).address ≤ max c.address (Site.mk c st).reach at hafter
      change q.start ≤ max c.address
        (max (Site.mk c st).reach (extent (sitesFrom (c.next st) sts)))
      omega

theorem end_le_extent {sts : List Statement} {q : Site} (hq : q ∈ sites sts)
    (horigin : q.statement.origin? = none) :
    q.start + q.statement.size ≤ extent (sites sts) := by
  by_cases hsize : q.statement.size = 0
  · have hstart := start_le_extent .start sts q hq
    change q.start ≤ max 0 (extent (sites sts)) at hstart
    omega
  · have hreach := extent_le_iff.mp (Nat.le_refl _) q hq
    simpa only [Site.reach, horigin, hsize, if_false] using hreach

/-- Where sites do not overlap, the byte at an address is that of the site that covers it. -/
theorem Disjoint.byte?_eq {qs : List Site} {q : Site} {i : Nat} (h : Disjoint qs) (hq : q ∈ qs)
    (hcovers : q.Covers i) (table : String -> Option Nat) :
    (q.write table).byte? i = some (byteAt qs table i) := by
  rcases exists_byte?_eq_byteAt table hq hcovers with ⟨r, hr, hbyte⟩
  rw [h.eq_of_covers hq hr hcovers (Site.covers_of_byte? hbyte)]
  exact hbyte

end Layout

/-!
# An origin in front
-/

def Statement.originAt (number : Nat) (a : UInt16) : Statement :=
  ⟨number, none, some (.directive (.origin a))⟩

namespace Layout

variable {sts : List Statement} {number : Nat} {a : UInt16}

theorem sites_behind_origin (h : forall st, st ∈ sts -> st.origin? = none) :
    sites (.originAt number a :: sts) =
      ⟨.start, .originAt number a⟩ :: (sites sts).map (Site.moveUp a.toNat) :=
  congrArg _ (sitesFrom_moveUp h a.toNat .start)

theorem run_behind_origin (h : forall st, st ∈ sts -> st.origin? = none) :
    Cursor.start.run (.originAt number a :: sts) = (Cursor.start.run sts).moveUp a.toNat :=
  Cursor.run_moveUp h a.toNat .start

theorem table_behind_origin (h : forall st, st ∈ sts -> st.origin? = none) (name : String) :
    table (.originAt number a :: sts) name = (table sts name).map (a.toNat + ·) := by
  rw [table, run_behind_origin h, Cursor.table_moveUp]
  rfl

theorem moveUp_mem_behind_origin (h : forall st, st ∈ sts -> st.origin? = none) {q : Site}
    (hq : q ∈ sites sts) : q.moveUp a.toNat ∈ sites (.originAt number a :: sts) := by
  rw [sites_behind_origin h]
  exact List.mem_cons_of_mem _ (List.mem_map_of_mem hq)

/-- The origin itself covers nothing. -/
theorem exists_of_covers_behind_origin (h : forall st, st ∈ sts -> st.origin? = none) {r : Site}
    {i : Nat} (hr : r ∈ sites (.originAt number a :: sts)) (hcovers : r.Covers i) :
    exists q, q ∈ sites sts ∧ r = q.moveUp a.toNat := by
  rw [sites_behind_origin h] at hr
  rcases List.mem_cons.mp hr with rfl | hmoved
  · exact (Nat.not_lt.mpr hcovers.left hcovers.right).elim
  · rcases List.mem_map.mp hmoved with ⟨q, hq, rfl⟩
    exact ⟨q, hq, rfl⟩

theorem disjoint_behind_origin (h : forall st, st ∈ sts -> st.origin? = none) :
    Disjoint (sites (.originAt number a :: sts)) := by
  refine List.Pairwise.cons ?_ (disjoint_of_no_origin h)
  intro r _
  exact Site.apart_iff.mpr (Or.inl rfl)

end Layout

namespace State

/-- Lines that can all be read fail at the site of one of them. -/
theorem exists_fault_of_lines {ls : List TokenLine} {sts : List Statement} {e : StatementError}
    (hreads : Statement.Reads ls sts) (h : start.lines ls = .error e) :
    exists q, q ∈ Layout.sites sts ∧ q.fault? = some e := by
  rcases lines_eq_error_iff.mp h with ⟨before, l, after, sts₁, rfl, hbefore, _, hfails⟩
  rcases Statement.exists_reads_append hreads with ⟨found, sts₂, rfl, hfound, hrest⟩
  rw [Statement.reads_unique hfound hbefore]
  cases hrest with
  | cons hline _ =>
      cases hfails with
      | unreadable hread =>
          rw [hline] at hread
          cases hread
      | misplaced hst hfault =>
          rw [hline] at hst
          cases hst
          refine ⟨_, ?_, hfault⟩
          rw [Layout.sites, Layout.sitesFrom_append]
          exact List.mem_append_right _ List.mem_cons_self

end State

namespace Layout

variable {sts : List Statement} {number : Nat} {a : UInt16}

theorem resolved_behind_origin (h : forall st, st ∈ sts -> st.origin? = none)
    (hresolved : Resolved sts) : Resolved (.originAt number a :: sts) := by
  intro r hr kind l hreference
  rw [sites_behind_origin h] at hr
  rcases List.mem_cons.mp hr with rfl | hmoved
  · cases hreference
  · rcases List.mem_map.mp hmoved with ⟨q, hq, rfl⟩
    rcases hresolved q hq kind l hreference with ⟨target, htarget, hreach⟩
    refine ⟨a.toNat + target, ?_, RefKind.reaches_add_iff.mpr hreach⟩
    rw [table_behind_origin h, htarget]
    rfl

end Layout

namespace Program

/-- The lines of a program behind a line that moves it to an address. -/
def behindOrigin (number : Nat) (a : UInt16) (ls : List TokenLine) : List TokenLine :=
  ⟨number, [.directive "ORG", .number a]⟩ :: ls

theorem reads_behindOrigin {ls : List TokenLine} {sts : List Statement} (number : Nat)
    (a : UInt16) (h : Statement.Reads ls sts) :
    Statement.Reads (behindOrigin number a ls) (.originAt number a :: sts) :=
  .cons rfl h

/-- A failure behind the origin is that of a statement which has been moved too far up. -/
theorem exists_fault_behind_origin {ls : List TokenLine} {sts : List Statement} {a : UInt16}
    {number : Nat} {e : StatementError} (hreads : Statement.Reads ls sts)
    (hsts : forall st, st ∈ sts -> st.origin? = none) (hresolved : Layout.Resolved sts)
    (h : ofLines (behindOrigin number a ls) = .error e) :
    exists q, q ∈ Layout.sites sts ∧ (q.moveUp a.toNat).fault? = some e := by
  have hall := reads_behindOrigin number a hreads
  rcases ofLines_eq_error_iff.mp h with hlines | ⟨found, hfound, _, hlate⟩
  · rcases State.exists_fault_of_lines hall hlines with ⟨r, hr, hfault⟩
    rw [Layout.sites_behind_origin hsts] at hr
    rcases List.mem_cons.mp hr with rfl | hmoved
    · -- an origin without a label cannot fail
      cases hfault
    · rcases List.mem_map.mp hmoved with ⟨q, hq, rfl⟩
      exact ⟨q, hq, hfault⟩
  · -- all references are resolved, so the end of the run cannot fail
    rw [Statement.reads_unique hfound hall] at hlate
    rcases List.exists_of_findSome?_eq_some hlate with ⟨r, hr, hfault⟩
    rcases Site.lateFault?_eq_some hfault with ⟨kind, l, hdeferred, hwhy⟩
    have hreference := (Site.deferred?_eq_some_iff.mp hdeferred).left
    rcases Layout.resolved_behind_origin hsts hresolved r hr kind l hreference with
      ⟨target, htarget, hreach⟩
    rcases hwhy with ⟨hnone, _⟩ | ⟨other, hother, hfar, _⟩
    · rw [htarget] at hnone
      cases hnone
    · rw [htarget] at hother
      cases hother
      exact absurd hreach hfar

/-!
# The program behind an origin
-/

/-- What becomes of a program with the statements `sts` if it is moved up by `a`. -/
structure MovedUp (a : Nat) (sts : List Statement) (program program' : Program) : Prop where
  size : program'.image.size = a + program.image.size
  below : forall i, i < a -> program'.image[i]? = some 0
  labels : program'.symbols.labels.map (fun e => (e.1, e.2.toNat)) =
    program.symbols.labels.map fun e => (e.1, a + e.2.toNat)
  bytes : forall i, i < program.image.size ->
    (forall q, q ∈ Layout.sites sts -> ¬ q.HoldsAddress i) ->
    program'.image[a + i]? = program.image[i]?
  addresses : forall q, q ∈ Layout.sites sts ->
    forall l, q.statement.reference? = some (.absolute, l) ->
      exists target low high, program.symbols.table l.name = some target ∧
        program'.image[a + (q.start + 1)]? = some low ∧
        program'.image[a + (q.start + 2)]? = some high ∧
        low.toNat + 256 * high.toNat = a + target
  branches : forall q, q ∈ Layout.sites sts ->
    forall i, q.statement.nucleus? = some (.instruction i) -> i.operand.mode = .relative ->
      program'.image[a + (q.start + 1)]? = program.image[q.start + 1]?

section

variable {sts : List Statement} {number : Nat} {a : UInt16} {s' : State} {program' : Program}
  (hsts : forall st, st ∈ sts -> st.origin? = none)
  (hsteps' : State.start.steps (.originAt number a :: sts) = .ok s')
  (hfinish' : s'.finish = .ok program')

include hsts hsteps' hfinish'

theorem byte_below_origin {i : Nat} (h : i < a.toNat) : program'.image.byte i = 0 := by
  rw [State.byteAt_table_of_finish hsteps' hfinish', Layout.byteAt_eq_zero]
  intro r hr hcovers
  rcases Layout.exists_of_covers_behind_origin hsts hr hcovers with ⟨q, _, rfl⟩
  have hstart := hcovers.left
  rw [Site.start_moveUp] at hstart
  omega

/-- Nothing overlaps, so every statement is found in memory as it stands there. -/
theorem byte?_behind_origin {q : Site} {i : Nat} (hq : q ∈ Layout.sites sts)
    (hcovers : q.Covers i) :
    ((q.moveUp a.toNat).write (Layout.table (.originAt number a :: sts))).byte? (a.toNat + i) =
      some (program'.image.byte (a.toNat + i)) := by
  rw [State.byteAt_table_of_finish hsteps' hfinish']
  apply (Layout.disjoint_behind_origin hsts).byte?_eq
  · exact Layout.moveUp_mem_behind_origin hsts hq
  · exact Site.covers_moveUp_iff.mpr hcovers

variable {s : State} {program : Program} (hsteps : State.start.steps sts = .ok s)
  (hfinish : s.finish = .ok program)

include hsteps hfinish

theorem size_behind_origin : program'.image.size = a.toNat + program.image.size := by
  have hsites : forall q, q ∈ Layout.sites sts -> q.statement.origin? = none := by
    intro q hq
    exact hsts q.statement (Layout.exists_site_iff.mpr ⟨q, hq, rfl⟩)
  rw [State.size_of_finish hsteps hfinish, State.size_of_finish hsteps' hfinish',
    Layout.sites_behind_origin hsts, <- Layout.extent_moveUp hsites]
  rfl

theorem labels_behind_origin :
    program'.symbols.labels.map (fun e => (e.1, e.2.toNat)) =
      program.symbols.labels.map fun e => (e.1, a.toNat + e.2.toNat) := by
  rw [State.labels_of_finish hsteps' hfinish', Layout.run_behind_origin hsts, Cursor.moveUp,
    <- State.labels_of_finish hsteps hfinish, List.map_map]
  rfl

/-- Away from addresses of labels, the bytes are the same. -/
theorem byte_behind_origin {i : Nat}
    (h : forall q, q ∈ Layout.sites sts -> ¬ q.HoldsAddress i) :
    program'.image.byte (a.toNat + i) = program.image.byte i := by
  by_cases hcovered : exists q, q ∈ Layout.sites sts ∧ q.Covers i
  · rcases hcovered with ⟨q, hq, hcovers⟩
    have hbyte := (Layout.disjoint_of_no_origin hsts).byte?_eq hq hcovers (Layout.table sts)
    have hbyte' := byte?_behind_origin hsts hsteps' hfinish' hq hcovers
    rw [Site.byte?_moveUp (Layout.table_behind_origin hsts) hcovers (h q hq), hbyte] at hbyte'
    rw [State.byteAt_table_of_finish hsteps hfinish]
    exact (Option.some.inj hbyte').symm
  · rw [State.byteAt_table_of_finish hsteps hfinish,
      State.byteAt_table_of_finish hsteps' hfinish', Layout.byteAt_eq_zero, Layout.byteAt_eq_zero]
    · intro q hq hcovers
      exact hcovered ⟨q, hq, hcovers⟩
    · intro r hr hcovers
      rcases Layout.exists_of_covers_behind_origin hsts hr hcovers with ⟨q, hq, rfl⟩
      exact hcovered ⟨q, hq, Site.covers_moveUp_iff.mp hcovers⟩

/-- An operand that holds the address of a label holds the new address. -/
theorem address_behind_origin {q : Site} {l : LabelRef} (hq : q ∈ Layout.sites sts)
    (hreference : q.statement.reference? = some (.absolute, l)) :
    exists target, program.symbols.table l.name = some target ∧
      (program'.image.byte (a.toNat + (q.start + 1))).toNat +
        256 * (program'.image.byte (a.toNat + (q.start + 2))).toNat = a.toNat + target := by
  have hresolved := State.resolved_of_finish hsteps hfinish
  rcases hresolved q hq .absolute l hreference with ⟨target, htarget, _⟩
  have htarget' : program'.symbols.table l.name = some (a.toNat + target) := by
    rw [State.table_of_finish hsteps' hfinish', Layout.table_behind_origin hsts, htarget]
    rfl
  rcases Site.code_absolute (q := q.moveUp a.toNat) hreference htarget'
    (Symbols.lt_of_table htarget') with ⟨opcode, low, high, hcode, hvalue⟩
  rw [State.table_of_finish hsteps' hfinish'] at hcode
  have hsize : q.statement.size = 3 := Statement.size_of_reference hreference
  have hlow := byte?_behind_origin hsts hsteps' hfinish' (i := q.start + 1) hq
    ⟨by omega, by omega⟩
  have hhigh := byte?_behind_origin hsts hsteps' hfinish' (i := q.start + 2) hq
    ⟨by omega, by omega⟩
  rw [Site.write, hcode, Site.start_moveUp, Write.byte?_add] at hlow hhigh
  have hlow' : low = program'.image.byte (a.toNat + (q.start + 1)) := by
    simpa [Write.byte?] using hlow
  have hhigh' : high = program'.image.byte (a.toNat + (q.start + 2)) := by
    simpa [Write.byte?] using hhigh
  rw [State.table_of_finish hsteps hfinish]
  exact ⟨target, htarget, by rw [<- hlow', <- hhigh', hvalue]⟩

theorem movedUp_behind_origin : MovedUp a.toNat sts program program' := by
  have hsize := size_behind_origin hsts hsteps' hfinish' hsteps hfinish
  have hextent := State.size_of_finish hsteps hfinish
  have horigin : forall q, q ∈ Layout.sites sts -> q.statement.origin? = none := by
    intro q hq
    exact hsts q.statement (Layout.exists_site_iff.mpr ⟨q, hq, rfl⟩)
  have hbytes : forall i, i < program.image.size ->
      (forall q, q ∈ Layout.sites sts -> ¬ q.HoldsAddress i) ->
      program'.image[a.toNat + i]? = program.image[i]? := by
    intro i hi hmiss
    rw [Image.getElem?_eq_byte hi, Image.getElem?_eq_byte (by omega),
      byte_behind_origin hsts hsteps' hfinish' hsteps hfinish hmiss]
  constructor
  · exact hsize
  · intro i hi
    rw [Image.getElem?_eq_byte (by omega), byte_below_origin hsts hsteps' hfinish' hi]
  · exact labels_behind_origin hsts hsteps' hfinish' hsteps hfinish
  · exact hbytes
  · intro q hq l hreference
    rcases address_behind_origin hsts hsteps' hfinish' hsteps hfinish hq hreference with
      ⟨target, htarget, hvalue⟩
    have hend := Layout.end_le_extent hq (horigin q hq)
    have hlength : q.statement.size = 3 := Statement.size_of_reference hreference
    refine ⟨target, _, _, htarget, ?_, ?_, hvalue⟩
    · exact Image.getElem?_eq_byte (by omega)
    · exact Image.getElem?_eq_byte (by omega)
  · intro q hq i hnucleus hmode
    have hend := Layout.end_le_extent hq (horigin q hq)
    have hlength : q.statement.size = 2 := by
      simp only [Statement.size, hnucleus, Instruction.size, hmode, Mode.operandSize]
    apply hbytes
    · omega
    · -- no other statement covers the displacement, and a branch holds no address
      intro r hr hholds
      have hcovers : q.Covers (q.start + 1) := ⟨by omega, by omega⟩
      have hsame := (Layout.disjoint_of_no_origin hsts).eq_of_covers hr hq hholds.right.right
        hcovers
      rcases hholds.left with ⟨l, hreference⟩
      rw [hsame] at hreference
      exact Statement.reference?_ne_of_relative hnucleus hmode l hreference

end

theorem ofLines_behindOrigin {ls : List TokenLine} {program : Program}
    (hls : forall l, l ∈ ls -> Token.directive "ORG" ∉ l.tokens)
    (h : ofLines ls = .ok program) (number : Nat) (a : UInt16) :
    ((exists e, ofLines (behindOrigin number a ls) = .error e ∧ e.kind = .pcOverflow) ∨
      exists program', ofLines (behindOrigin number a ls) = .ok program' ∧
        exists sts, Statement.Reads ls sts ∧ MovedUp a.toNat sts program program') ∧
    (a.toNat + program.image.size ≤ 65535 ->
      exists program', ofLines (behindOrigin number a ls) = .ok program') := by
  rcases ofLines_eq_ok_iff.mp h with ⟨sts, s, hreads, hsteps, hfinish⟩
  have hsts := Statement.origin?_of_reads hreads hls
  have hadmissible := State.admissible_of_steps hsteps
  have hresolved := State.resolved_of_finish hsteps hfinish
  cases houtcome : ofLines (behindOrigin number a ls) with
  | ok program' =>
      rcases ofLines_eq_ok_iff.mp houtcome with ⟨found, s', hfound, hsteps', hfinish'⟩
      rw [Statement.reads_unique hfound (reads_behindOrigin number a hreads)] at hsteps'
      have hmoved := movedUp_behind_origin hsts hsteps' hfinish' hsteps hfinish
      exact ⟨Or.inr ⟨program', rfl, sts, hreads, hmoved⟩, fun _ => ⟨program', rfl⟩⟩
  | error e =>
      rcases exists_fault_behind_origin hreads hsts hresolved houtcome with ⟨q, hq, hfault⟩
      have horigin := hsts q.statement (Layout.exists_site_iff.mpr ⟨q, hq, rfl⟩)
      have hnone := Site.fault?_eq_none_iff.mpr (hadmissible q hq)
      refine ⟨Or.inl ⟨e, rfl, Site.pcOverflow_of_fault_moveUp horigin hnone hfault⟩, ?_⟩
      intro hfits
      have hend := Layout.end_le_extent hq horigin
      rw [State.size_of_finish hsteps hfinish] at hfits
      have hmoved := Site.admissible_moveUp (a := a.toNat) horigin (hadmissible q hq) (by omega)
      rw [Site.fault?_eq_none_iff.mpr hmoved] at hfault
      cases hfault

/-- A branch over a jump, to the line behind it. -/
def skippedJump : List TokenLine :=
  [⟨2, [.mnemonic .bne, .label "SKIP"]⟩, ⟨3, [.mnemonic .jmp, .label "SKIP"]⟩,
    ⟨4, [.label "SKIP", .colon]⟩]

/-- At address `2` the jump holds `7` and no longer `5`, and the branch is the same. -/
theorem skippedJump_behind_origin :
    (forall l, l ∈ skippedJump -> Token.directive "ORG" ∉ l.tokens) ∧
      ofLines skippedJump = .ok ⟨#[0xD0, 3, 0x4C, 5, 0], ⟨[("SKIP", 5)], #[]⟩⟩ ∧
      ofLines (behindOrigin 1 2 skippedJump) =
        .ok ⟨#[0, 0, 0xD0, 3, 0x4C, 7, 0], ⟨[("SKIP", 7)], #[]⟩⟩ ∧
      exists sts, Statement.Reads skippedJump sts ∧
        MovedUp 2 sts ⟨#[0xD0, 3, 0x4C, 5, 0], ⟨[("SKIP", 5)], #[]⟩⟩
          ⟨#[0, 0, 0xD0, 3, 0x4C, 7, 0], ⟨[("SKIP", 7)], #[]⟩⟩ := by
  have hls : forall l, l ∈ skippedJump -> Token.directive "ORG" ∉ l.tokens := by decide
  have hlines : ofLines skippedJump =
      .ok ⟨#[0xD0, 3, 0x4C, 5, 0], ⟨[("SKIP", 5)], #[]⟩⟩ := by cbv
  have hmoved : ofLines (behindOrigin 1 2 skippedJump) =
      .ok ⟨#[0, 0, 0xD0, 3, 0x4C, 7, 0], ⟨[("SKIP", 7)], #[]⟩⟩ := by cbv
  refine ⟨hls, hlines, hmoved, ?_⟩
  rcases (ofLines_behindOrigin hls hlines 1 2).left with ⟨e, herror, _⟩ | ⟨program', hok, hsts⟩
  · rw [hmoved] at herror
    cases herror
  · rw [hmoved] at hok
    cases hok
    exact hsts

end Program
end Asm65
