import Asm65.Proofs.Resolution
import Asm65.Proofs.Scan

/-!
# The invariant of the assembler

The image always reaches up to the counter, up to every label and up to the end of every
queued operand, and it never gets longer than memory.  This holds of a state between two
statements.  Within an instruction it can fail for a moment, when a reference is queued
right after an opcode at `$FFFF`; but then the instruction fails as a whole.
-/

namespace Asm65
namespace State

structure Invariant (s : State) : Prop where
  pc_le : s.pc.toNat ≤ s.image.size
  size_le : s.image.size ≤ 65536
  overflow : s.overflowed = true -> s.pc = 0 ∧ s.image.size = 65536
  labels : forall name a, (name, a) ∈ s.symbols.labels -> a.toNat ≤ s.image.size
  pending : forall f, f ∈ s.symbols.pending ->
    1 ≤ f.offset.toNat ∧ f.offset.toNat + f.kind.width ≤ s.image.size

/-!
## The same in terms of the cursor
-/

/-- The invariant without the fields of the counter, which follow from the cursor. -/
structure Covered (s : State) : Prop where
  wraps : s.Wraps
  counter_le : s.cursor.address ≤ s.image.size
  size_le : s.image.size ≤ 65536
  labels : forall e, e ∈ s.cursor.labels -> e.2 ≤ s.image.size
  pending : forall f, f ∈ s.symbols.pending.toList ->
    1 ≤ f.offset.toNat ∧ f.offset.toNat + f.kind.width ≤ s.image.size

theorem invariant_of_covered {s : State} (h : s.Covered) : s.Invariant := by
  have hcounter : s.counter ≤ s.image.size := h.counter_le
  constructor
  · cases hover : s.overflowed with
    | true =>
        rw [h.wraps hover]
        exact Nat.zero_le _
    | false =>
        rw [<- counter_of_not_overflowed hover]
        exact hcounter
  · exact h.size_le
  · intro hover
    rw [counter_of_overflowed hover] at hcounter
    exact ⟨h.wraps hover, Nat.le_antisymm h.size_le hcounter⟩
  · intro name a hmem
    exact h.labels (name, a.toNat) (List.mem_map.mpr ⟨(name, a), hmem, rfl⟩)
  · intro f hf
    exact h.pending f (Array.mem_toList_iff.mpr hf)

theorem covered_start : start.Covered := by
  constructor
  · intro h
    cases h
  · exact Nat.le_refl _
  · exact Nat.zero_le _
  · intro e he
    cases he
  · intro f hf
    cases hf

end State

namespace Site

/-- An admissible site stays within memory, and an origin is an address of memory. -/
theorem Admissible.reach_le {q : Site} (h : q.Admissible) : q.reach ≤ 65536 := by
  have hfits := h.fits
  unfold reach
  split
  · next a _ =>
      exact Nat.le_of_lt a.toNat_lt
  · split
    · exact Nat.zero_le _
    · exact hfits

theorem after_le (q : Site) : q.statement.after q.start ≤ max q.start q.reach := by
  unfold Statement.after reach
  split
  · exact Nat.le_max_right _ _
  · split
    · omega
    · exact Nat.le_max_right _ _

end Site

namespace State

theorem covered_of_step {s t : State} {st : Statement} (hs : s.Covered)
    (h : s.step st = .ok t) : t.Covered := by
  have hadmissible := (exists_step_iff s st).mp ⟨t, h⟩
  have heffect := effect_of_step h
  have hsize : t.image.size = max s.image.size (Site.mk s.cursor st).reach := by
    rw [heffect.image, Site.size_onto]
  have hstart := hs.counter_le
  constructor
  · exact heffect.wraps hs.wraps
  · have hafter := Site.after_le ⟨s.cursor, st⟩
    rw [heffect.cursor, hsize]
    simp only [Cursor.next, Site.start] at hafter ⊢
    omega
  · rw [hsize]
    exact Nat.max_le.mpr ⟨hs.size_le, hadmissible.reach_le⟩
  · intro e he
    rw [heffect.cursor] at he
    rcases List.mem_append.mp he with hnew | hold
    · -- a new label stands at the counter, which the image covered already
      rcases List.mem_map.mp hnew with ⟨l, _, rfl⟩
      simp only [hsize]
      omega
    · have hle := hs.labels e hold
      omega
  · intro f hf
    rw [heffect.pending] at hf
    rcases List.mem_append.mp hf with hold | hnew
    · have hle := hs.pending f hold
      omega
    · have hoffset := hadmissible.offset_of_fixup (Option.mem_toList.mp hnew)
      omega

/-!
## Reachable states and the patches after them
-/

/-- A state that statements lead to from the start. -/
inductive Reachable : State -> Prop where
  | start : Reachable start
  | step {s t : State} {st : Statement} :
      Reachable s -> s.step st = .ok t -> Reachable t

theorem reachable_of_steps {s t : State} {sts : List Statement} (hs : Reachable s)
    (h : s.steps sts = .ok t) : Reachable t := by
  induction sts generalizing s with
  | nil =>
      have hst : s = t := foldlM_nil_eq_ok_iff.mp h
      rw [<- hst]
      exact hs
  | cons st sts ih =>
      rcases foldlM_cons_eq_ok_iff.mp h with ⟨u, hstep, hrest⟩
      exact ih (.step hs hstep) hrest

theorem reachable_of_lines {s : State} {ls : List TokenLine} (h : start.lines ls = .ok s) :
    Reachable s := by
  rcases lines_eq_ok_iff.mp h with ⟨sts, _, hsteps⟩
  exact reachable_of_steps .start hsteps

theorem covered_of_reachable {s : State} (h : Reachable s) : s.Covered := by
  induction h with
  | start =>
      exact covered_start
  | step _ hstep ih =>
      exact covered_of_step ih hstep

/-- The patch of a queued reference stays within the image that earlier patches left. -/
def PatchesInRange (s : State) : Prop :=
  forall before f after image,
    s.symbols.pending.toList = before ++ f :: after ->
    before.foldlM (Fixup.patch s.symbols) s.image = .ok image ->
    f.offset.toNat + f.kind.width ≤ image.size ∧ (f.offset - 1).toNat + 1 = f.offset.toNat

theorem patchesInRange_of_covered {s : State} (h : s.Covered) : s.PatchesInRange := by
  intro before f after image hqueue hbefore
  have hmem : f ∈ s.symbols.pending.toList := by
    rw [hqueue]
    exact List.mem_append_right before List.mem_cons_self
  have hf := h.pending f hmem
  have hsize : image.size = s.image.size := Fixup.size_of_patchAll hbefore
  constructor
  · rw [hsize]
    exact hf.right
  · exact Fixup.toNat_offset_sub_one hf.left

theorem reachable_invariant_and_patches_in_range :
    (forall s, Reachable s -> s.Invariant) ∧
      (forall ls s, start.lines ls = .ok s -> s.PatchesInRange) := by
  constructor
  · intro s h
    exact invariant_of_covered (covered_of_reachable h)
  · intro ls s h
    exact patchesInRange_of_covered (covered_of_reachable (reachable_of_lines h))

/-- A jump to a later label whose operand is overwritten before the label is known. -/
def overwrittenJump : List TokenLine :=
  [⟨1, [.mnemonic .jmp, .label "FWD"]⟩,
    ⟨2, [.directive "ORG", .number 2]⟩,
    ⟨3, [.directive "BYTE", .number 9]⟩,
    ⟨4, [.label "FWD", .colon, .mnemonic .bne, .label "FWD"]⟩]

/-- The scan of these lines leaves the jump in the queue. -/
def overwrittenJumpState : State :=
  ⟨5, false, #[0x4C, 0, 9, 0xD0, 0xFE],
    ⟨[("FWD", 3)], #[⟨⟨"FWD", 2⟩, 1, 1, .absolute⟩]⟩⟩

theorem overwrittenJump_patch_in_range :
    start.lines overwrittenJump = .ok overwrittenJumpState ∧
      Reachable overwrittenJumpState ∧ overwrittenJumpState.Invariant ∧
      overwrittenJumpState.PatchesInRange := by
  have hlines : start.lines overwrittenJump = .ok overwrittenJumpState := rfl
  have hreachable := reachable_of_lines hlines
  exact ⟨hlines, hreachable, reachable_invariant_and_patches_in_range.left _ hreachable,
    reachable_invariant_and_patches_in_range.right _ _ hlines⟩

end State
end Asm65
