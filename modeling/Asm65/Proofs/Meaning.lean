import Asm65.Proofs.Acceptance
import Asm65.Proofs.Invariant

/-!
# What an assembled program is

The image of a program can be read off its layout and its final labels.  Its length is the
farthest that any statement reaches.  Its bytes are those that the statements would have
with all labels known, and where statements overlap the last one counts; only an operand
that had to wait for its label counts before all statements, wherever they stand.  What bytes a
statement has is told by its encoding, which its place and the labels leave no choice for.
-/

namespace Asm65

/-!
# Scanned bytes
-/

namespace Layout

theorem size_foldl_put (tables : Site -> String -> Option Nat) (qs : List Site)
    (image : Image) :
    (qs.foldl (fun image q => q.put (tables q) image) image).size =
      max image.size (extent qs) := by
  induction qs generalizing image with
  | nil =>
      simp [extent]
  | cons q qs ih =>
      rw [List.foldl_cons, ih, Site.size_put, Nat.max_assoc]
      rfl

theorem byte_foldl_put (tables : Site -> String -> Option Nat) (qs : List Site)
    (image : Image) (a : Nat) :
    (qs.foldl (fun image q => q.put (tables q) image) image).byte a =
      (Write.last? (qs.map fun q => q.write (tables q)) a).getD (image.byte a) := by
  induction qs generalizing image with
  | nil =>
      rfl
  | cons q qs ih =>
      rw [List.foldl_cons, ih, Site.byte_put, List.map_cons, Write.last?_cons, Option.getD_or]

theorem size_foldl_onto (qs : List Site) (image : Image) :
    (qs.foldl Site.onto image).size = max image.size (extent qs) :=
  size_foldl_put Site.known qs image

/-- The image of a scan holds each statement with the labels that were known at its site. -/
theorem byte_foldl_onto (qs : List Site) (image : Image) (a : Nat) :
    (qs.foldl Site.onto image).byte a =
      (Write.last? (qs.map fun q => q.write q.known) a).getD (image.byte a) :=
  byte_foldl_put Site.known qs image a

end Layout

/-!
# Final bytes
-/

namespace Site

theorem code_of_reference {q : Site} {kind : RefKind} {l : LabelRef}
    (h : q.statement.reference? = some (kind, l)) :
    exists opcode, forall table,
      q.code table = opcode :: (Payload.reference kind l).bytes table q.start := by
  rcases Statement.exists_instruction_of_reference h with ⟨i, hnucleus, hpayload⟩
  refine ⟨i.opcode, ?_⟩
  intro table
  simp only [code, Statement.code, hnucleus, hpayload]

theorem code_of_no_reference {q : Site} (h : q.statement.reference? = none)
    (table table' : String -> Option Nat) : q.code table = q.code table' :=
  Statement.code_of_no_reference h table table' q.start q.start

/-- A queued reference writes the operand of its site. -/
theorem Admissible.patch?_eq {q : Site} (hq : q.Admissible) (table : String -> Option Nat) :
    q.patch? table = q.fixup?.map (Fixup.write table) := by
  cases hfixup : q.fixup? with
  | none =>
      rw [fixup?, Option.map_eq_none_iff] at hfixup
      rw [patch?, hfixup]
      rfl
  | some f =>
      have hoffset := (hq.offset_of_fixup hfixup).left
      have horigin := hq.origin_of_fixup hfixup
      rcases fixup?_eq_some_iff.mp hfixup with ⟨kind, l, hdeferred, rfl⟩
      rcases code_of_reference (deferred?_eq_some_iff.mp hdeferred).left with ⟨opcode, hcode⟩
      rw [patch?, hdeferred, Option.map_some, Option.map_some, hcode table, List.tail_cons,
        Fixup.write, horigin, hoffset]

/--
Away from an operand that waits for its label, the labels known at a site give the same
bytes as those of the whole program.
-/
theorem byte?_write_known {q : Site} {table : String -> Option Nat} {a : Nat}
    (htable : forall name target, q.known name = some target -> table name = some target)
    (hpatch : forall w, q.patch? table = some w -> w.byte? a = none) :
    (q.write q.known).byte? a = (q.write table).byte? a := by
  unfold write
  cases hreference : q.statement.reference? with
  | none =>
      rw [code_of_no_reference hreference q.known table]
  | some r =>
      rcases r with ⟨kind, l⟩
      rcases code_of_reference hreference with ⟨opcode, hcode⟩
      rw [hcode q.known, hcode table]
      cases hknown : q.known l.name with
      | some target =>
          simp only [Payload.bytes, hknown, htable l.name target hknown]
      | none =>
          -- the two operands differ, but they are equally long and miss the address
          have hdeferred := deferred?_eq_some_iff.mpr ⟨hreference, hknown⟩
          have hmiss := hpatch ⟨q.start + 1, (q.code table).tail⟩ (by rw [patch?, hdeferred]; rfl)
          rw [hcode table, List.tail_cons] at hmiss
          have hother : Write.byte? ⟨q.start + 1,
              (Payload.reference kind l).bytes q.known q.start⟩ a = none := by
            rw [Write.byte?_eq_none_iff] at hmiss ⊢
            simpa only [Payload.reference_bytes_length] using hmiss
          rw [Write.byte?_cons, Write.byte?_cons, hmiss, hother]

end Site

/-!
# Programs
-/

namespace Layout

/-- What the statements of a program say about its labels and its image. -/
structure Describes (sts : List Statement) (program : Program) : Prop where
  labels : program.symbols.table = table sts
  references : forall q, q ∈ sites sts ->
    forall kind l, q.statement.reference? = some (kind, l) ->
      exists target, program.symbols.table l.name = some target ∧
        kind.Denotes target q.start (q.code program.symbols.table).tail
  codes : forall q, q ∈ sites sts -> forall bytes,
    q.statement.Encodes program.symbols.table q.start bytes <->
      q.code program.symbols.table = bytes
  size : program.image.size = extent (sites sts)
  bytes : forall a, (h : a < program.image.size) ->
    program.image[a] = byteAt (sites sts) program.symbols.table a

theorem patches_eq {qs : List Site} (h : forall q, q ∈ qs -> q.Admissible)
    (table : String -> Option Nat) :
    (qs.filterMap Site.fixup?).map (Fixup.write table) = qs.filterMap (Site.patch? table) := by
  rw [List.map_filterMap]
  apply List.filterMap_congr
  intro q hq
  exact ((h q hq).patch?_eq table).symm

theorem byteAt_eq {qs : List Site} {table : String -> Option Nat}
    (htable : forall q, q ∈ qs -> forall name target,
      q.known name = some target -> table name = some target) (a : Nat) :
    (Write.last? (qs.filterMap (Site.patch? table)) a).getD
        ((Write.last? (qs.map fun q => q.write q.known) a).getD 0) =
      byteAt qs table a := by
  unfold byteAt
  rw [Option.getD_or]
  cases hpatches : Write.last? (qs.filterMap (Site.patch? table)) a with
  | some b =>
      rfl
  | none =>
      -- no late operand covers the address, so the two tables agree on the byte
      have hmiss := Write.last?_eq_none_iff.mp hpatches
      have hsame : Write.last? (qs.map fun q => q.write q.known) a =
          Write.last? (qs.map (Site.write table)) a := by
        apply Write.last?_map_congr
        intro q hq
        apply Site.byte?_write_known (htable q hq)
        intro w hw
        exact hmiss w (List.mem_filterMap.mpr ⟨q, hq, hw⟩)
      rw [hsame]

end Layout

namespace State

theorem size_of_steps {s : State} {sts : List Statement} (h : start.steps sts = .ok s) :
    s.image.size = Layout.extent (Layout.sites sts) := by
  rw [(follows_of_steps h).image, Layout.size_foldl_onto]
  exact Nat.max_eq_right (Nat.zero_le _)

theorem size_of_finish {s : State} {sts : List Statement} {program : Program}
    (hsteps : start.steps sts = .ok s) (hfinish : s.finish = .ok program) :
    program.image.size = Layout.extent (Layout.sites sts) := by
  rcases finish_eq_ok_iff.mp hfinish with ⟨image, hpatches, rfl⟩
  rw [<- size_of_steps hsteps]
  exact Fixup.size_of_patchAll hpatches

theorem byte_of_finish {s : State} {sts : List Statement} {program : Program}
    (hsteps : start.steps sts = .ok s) (hfinish : s.finish = .ok program) (a : Nat) :
    program.image.byte a = Layout.byteAt (Layout.sites sts) s.symbols.table a := by
  have hadmissible := admissible_of_steps hsteps
  have hsymbols := symbols_of_steps hsteps
  have hcovered := covered_of_reachable (reachable_of_steps .start hsteps)
  rcases finish_eq_ok_iff.mp hfinish with ⟨image, hpatches, rfl⟩
  have hbyte := Fixup.byte_of_patchAll (fun f hf => (hcovered.pending f hf).right) hpatches a
  rw [hsymbols.right, Layout.patches_eq hadmissible] at hbyte
  have hscan : s.image.byte a =
      (Write.last? ((Layout.sites sts).map fun q => q.write q.known) a).getD 0 := by
    rw [(follows_of_steps hsteps).image, Layout.byte_foldl_onto]
    rfl
  rw [hscan, Layout.byteAt_eq] at hbyte
  · exact hbyte
  · intro q hq name target hknown
    rw [hsymbols.left]
    exact Layout.table_run_of_known (Layout.distinct_of_admissible hadmissible) hq hknown

theorem byteAt_table_of_finish {s : State} {sts : List Statement} {program : Program}
    (hsteps : start.steps sts = .ok s) (hfinish : s.finish = .ok program) (a : Nat) :
    program.image.byte a = Layout.byteAt (Layout.sites sts) (Layout.table sts) a := by
  rw [byte_of_finish hsteps hfinish, (symbols_of_steps hsteps).left]

theorem denotes_of_finish {s : State} {sts : List Statement} {program : Program}
    (hsteps : start.steps sts = .ok s) (hfinish : s.finish = .ok program) {q : Site}
    (hq : q ∈ Layout.sites sts) {kind : RefKind} {l : LabelRef}
    (hreference : q.statement.reference? = some (kind, l)) :
    exists target, s.symbols.table l.name = some target ∧
      kind.Denotes target q.start (q.code s.symbols.table).tail := by
  have hadmissible := admissible_of_steps hsteps
  have hfixups := (exists_finish_iff hsteps).mp ⟨program, hfinish⟩
  have hresolved := Layout.resolved_of_admissible hadmissible hfixups
  rcases hresolved q hq kind l hreference with ⟨target, htarget, hreach⟩
  rw [<- (symbols_of_steps hsteps).left] at htarget
  rcases Site.code_of_reference hreference with ⟨opcode, hcode⟩
  refine ⟨target, htarget, ?_⟩
  rw [hcode, List.tail_cons, Payload.bytes, htarget]
  apply RefKind.denotes_bytes _ hreach
  rcases Option.map_eq_some_iff.mp htarget with ⟨address, _, rfl⟩
  exact address.toNat_lt

end State

theorem Program.ofLines_describes {ls : List TokenLine} {program : Program}
    (h : ofLines ls = .ok program) :
    exists sts, Statement.Reads ls sts ∧ Layout.Describes sts program := by
  rcases ofLines_eq_ok_iff.mp h with ⟨sts, s, hreads, hsteps, hfinish⟩
  have hbyte := State.byte_of_finish hsteps hfinish
  have hreferences : forall q, q ∈ Layout.sites sts -> forall kind l,
      q.statement.reference? = some (kind, l) ->
        exists target, s.symbols.table l.name = some target ∧
          kind.Denotes target q.start (q.code s.symbols.table).tail :=
    fun q hq kind l => State.denotes_of_finish hsteps hfinish hq
  rcases State.finish_eq_ok_iff.mp hfinish with ⟨image, hpatches, rfl⟩
  refine ⟨sts, hreads, ?_⟩
  constructor
  · exact (State.symbols_of_steps hsteps).left
  · exact hreferences
  · exact fun q hq bytes => Statement.encodes_iff (hreferences q hq)
  · rw [<- State.size_of_steps hsteps]
    exact Fixup.size_of_patchAll hpatches
  · intro a ha
    rw [Image.getElem_eq_byte]
    exact hbyte a

/-- The late operand of the jump wins over the byte that was put on top of it. -/
theorem Program.overwrittenJump_described :
    ofLines State.overwrittenJump = .ok ⟨#[0x4C, 3, 0, 0xD0, 0xFE], ⟨[("FWD", 3)], #[]⟩⟩ ∧
      exists sts, Statement.Reads State.overwrittenJump sts ∧
        Layout.Describes sts ⟨#[0x4C, 3, 0, 0xD0, 0xFE], ⟨[("FWD", 3)], #[]⟩⟩ := by
  have hlines : ofLines State.overwrittenJump =
      .ok ⟨#[0x4C, 3, 0, 0xD0, 0xFE], ⟨[("FWD", 3)], #[]⟩⟩ := rfl
  exact ⟨hlines, ofLines_describes hlines⟩

end Asm65
