import Asm65.Proofs.Step
import Mathlib.Data.List.Forall2

/-!
# The scan of a program

What holds of one statement is carried over to all lines of a program.  A scan goes through
exactly if every line can be read and every site is admissible.  The state that it leads to
is the one that the layout describes.
-/

namespace Asm65

/-- Each line reads as the statement beside it. -/
def Statement.Reads (ls : List TokenLine) (sts : List Statement) : Prop :=
  List.Forall₂ (fun l st => Statement.ofLine l = .ok st) ls sts

namespace State

def steps (s : State) (sts : List Statement) : Except StatementError State :=
  sts.foldlM step s

/-- Reading and taking up alternate, but a scan that goes through reads all lines. -/
theorem lines_eq_ok_iff {s t : State} {ls : List TokenLine} :
    s.lines ls = .ok t <-> exists sts, Statement.Reads ls sts ∧ s.steps sts = .ok t := by
  induction ls generalizing s with
  | nil =>
      constructor
      · intro h
        exact ⟨[], List.Forall₂.nil, h⟩
      · intro h
        rcases h with ⟨sts, hreads, hsteps⟩
        cases hreads
        exact hsteps
  | cons l ls ih =>
      constructor
      · intro h
        rcases foldlM_cons_eq_ok_iff.mp h with ⟨u, hline, hrest⟩
        rcases bind_eq_ok_iff.mp hline with ⟨st, hst, hstep⟩
        rcases ih.mp hrest with ⟨sts, hreads, hsteps⟩
        exact ⟨st :: sts, List.Forall₂.cons hst hreads,
          foldlM_cons_eq_ok_iff.mpr ⟨u, hstep, hsteps⟩⟩
      · intro h
        rcases h with ⟨sts, hreads, hsteps⟩
        cases hreads with
        | cons hst hreads =>
            rcases foldlM_cons_eq_ok_iff.mp hsteps with ⟨u, hstep, hrest⟩
            exact foldlM_cons_eq_ok_iff.mpr
              ⟨u, bind_eq_ok_iff.mpr ⟨_, hst, hstep⟩, ih.mpr ⟨_, hreads, hrest⟩⟩

/-!
# Runs
-/

/-- Taking up all of the statements does to the state what their sites say. -/
structure Follows (s t : State) (sts : List Statement) : Prop where
  wraps : s.Wraps -> t.Wraps
  cursor : t.cursor = s.cursor.run sts
  image : t.image = (Layout.sitesFrom s.cursor sts).foldl Site.onto s.image
  pending : t.symbols.pending.toList =
    s.symbols.pending.toList ++ (Layout.sitesFrom s.cursor sts).filterMap Site.fixup?

theorem follows_of_steps {s t : State} {sts : List Statement} (h : s.steps sts = .ok t) :
    Follows s t sts := by
  induction sts generalizing s with
  | nil =>
      have hst : s = t := foldlM_nil_eq_ok_iff.mp h
      subst hst
      constructor
      · exact id
      · rfl
      · rfl
      · exact (List.append_nil _).symm
  | cons st sts ih =>
      rcases foldlM_cons_eq_ok_iff.mp h with ⟨u, hstep, hrest⟩
      have hfirst := effect_of_step hstep
      have hothers := ih hrest
      have hcursor : u.cursor = s.cursor.next st := hfirst.cursor
      constructor
      · exact fun hwraps => hothers.wraps (hfirst.wraps hwraps)
      · rw [hothers.cursor, hcursor, Cursor.run_cons]
      · rw [hothers.image, hfirst.image, hcursor]
        rfl
      · rw [hothers.pending, hfirst.pending, hcursor, Layout.sitesFrom]
        cases hfix : (Site.mk s.cursor st).fixup? with
        | none => simp [hfix]
        | some f => simp [hfix]

theorem exists_steps_iff {s : State} {sts : List Statement} :
    (exists t, s.steps sts = .ok t) <->
      forall q, q ∈ Layout.sitesFrom s.cursor sts -> q.Admissible := by
  induction sts generalizing s with
  | nil =>
      constructor
      · intro _ q hq
        cases hq
      · intro _
        exact ⟨s, foldlM_nil_eq_ok_iff.mpr rfl⟩
  | cons st sts ih =>
      rw [Layout.sitesFrom, List.forall_mem_cons]
      constructor
      · intro h
        rcases h with ⟨t, ht⟩
        rcases foldlM_cons_eq_ok_iff.mp ht with ⟨u, hstep, hrest⟩
        have hcursor : u.cursor = s.cursor.next st := (effect_of_step hstep).cursor
        constructor
        · exact (exists_step_iff s st).mp ⟨u, hstep⟩
        · rw [<- hcursor]
          exact ih.mp ⟨t, hrest⟩
      · intro h
        rcases (exists_step_iff s st).mpr h.left with ⟨u, hstep⟩
        have hcursor : u.cursor = s.cursor.next st := (effect_of_step hstep).cursor
        rw [<- hcursor] at h
        rcases ih.mpr h.right with ⟨t, ht⟩
        exact ⟨t, foldlM_cons_eq_ok_iff.mpr ⟨u, hstep, ht⟩⟩

end State
end Asm65
