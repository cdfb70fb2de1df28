import Asm65.Assembler
import Mathlib.Data.List.Forall2

/-!
# Outcomes

A chain of steps that can fail goes through exactly if each step does, and otherwise fails
as the first step that does not.
-/

namespace Asm65

variable {ε ε' α β : Type}

theorem bind_eq_ok_iff {x : Except ε α} {f : α -> Except ε β} {b : β} :
    x >>= f = .ok b <-> exists a, x = .ok a ∧ f a = .ok b := by
  cases x with
  | error e =>
      simp [bind, Except.bind]
  | ok a =>
      simp [bind, Except.bind]

theorem map_eq_ok_iff {x : Except ε α} {f : α -> β} {b : β} :
    x.map f = .ok b <-> exists a, x = .ok a ∧ f a = b := by
  cases x with
  | error e =>
      simp [Except.map]
  | ok a =>
      simp [Except.map]

theorem mapError_eq_ok_iff {x : Except ε α} {f : ε -> ε'} {a : α} :
    x.mapError f = .ok a <-> x = .ok a := by
  cases x with
  | error e =>
      constructor
      · intro h
        cases h
      · intro h
        cases h
  | ok b =>
      constructor
      · intro h
        cases h
        rfl
      · intro h
        cases h
        rfl

theorem mapError_id (x : Except ε α) : x.mapError id = x := by
  cases x with
  | error e => rfl
  | ok a => rfl

theorem mapError_mapError {δ : Type} (f : ε -> ε') (g : ε' -> δ) (x : Except ε α) :
    (x.mapError f).mapError g = x.mapError (g ∘ f) := by
  cases x with
  | error e => rfl
  | ok a => rfl

theorem located_eq_ok_iff {line token : Nat} {x : Except StatementError.Kind α} {a : α} :
    located line token x = .ok a <-> x = .ok a :=
  mapError_eq_ok_iff

/-- A fold goes through exactly if it does on the first element and then on the others. -/
theorem foldlM_cons_eq_ok_iff {f : β -> α -> Except ε β} {x : α} {xs : List α} {b c : β} :
    (x :: xs).foldlM f b = .ok c <-> exists a, f b x = .ok a ∧ xs.foldlM f a = .ok c := by
  rw [List.foldlM_cons]
  exact bind_eq_ok_iff

theorem foldlM_nil_eq_ok_iff {f : β -> α -> Except ε β} {b c : β} :
    ([] : List α).foldlM f b = .ok c <-> b = c := by
  simp [pure, Except.pure]

/-!
# Failures

A chain of steps fails as the first of its steps that fails.
-/

theorem bind_eq_error_iff {x : Except ε α} {f : α -> Except ε β} {e : ε} :
    x >>= f = .error e <-> x = .error e ∨ exists a, x = .ok a ∧ f a = .error e := by
  cases x with
  | error e' =>
      simp [bind, Except.bind]
  | ok a =>
      simp [bind, Except.bind]

theorem map_eq_error_iff {x : Except ε α} {f : α -> β} {e : ε} :
    x.map f = .error e <-> x = .error e := by
  cases x with
  | error e' => simp [Except.map]
  | ok a => simp [Except.map]

theorem mapError_eq_error_iff {x : Except ε α} {f : ε -> ε'} {e : ε'} :
    x.mapError f = .error e <-> exists e', x = .error e' ∧ f e' = e := by
  cases x with
  | error e' =>
      constructor
      · intro h
        cases h
        exact ⟨e', rfl, rfl⟩
      · intro h
        rcases h with ⟨e', heq, rfl⟩
        cases heq
        rfl
  | ok a =>
      constructor
      · intro h
        cases h
      · intro h
        rcases h with ⟨e', heq, _⟩
        cases heq

/-- A fold fails at the first element that cannot be taken up. -/
theorem foldlM_eq_error_iff {f : β -> α -> Except ε β} {xs : List α} {b : β} {e : ε} :
    xs.foldlM f b = .error e <->
      exists before x after c, xs = before ++ x :: after ∧ before.foldlM f b = .ok c ∧
        f c x = .error e := by
  induction xs generalizing b with
  | nil =>
      constructor
      · intro h
        cases h
      · intro h
        rcases h with ⟨before, x, after, c, heq, _⟩
        exact (List.append_ne_nil_of_right_ne_nil before (List.cons_ne_nil x after) heq.symm).elim
  | cons y ys ih =>
      rw [List.foldlM_cons, bind_eq_error_iff]
      constructor
      · intro h
        rcases h with hfirst | ⟨c, hc, hrest⟩
        · exact ⟨[], y, ys, b, rfl, rfl, hfirst⟩
        · rcases ih.mp hrest with ⟨before, x, after, d, rfl, hbefore, hx⟩
          exact ⟨y :: before, x, after, d, rfl, foldlM_cons_eq_ok_iff.mpr ⟨c, hc, hbefore⟩, hx⟩
      · intro h
        rcases h with ⟨before, x, after, c, heq, hbefore, hx⟩
        cases before with
        | nil =>
            cases heq
            cases hbefore
            exact Or.inl hx
        | cons z before =>
            cases heq
            rcases foldlM_cons_eq_ok_iff.mp hbefore with ⟨d, hd, hrest⟩
            exact Or.inr ⟨d, hd, ih.mpr ⟨before, x, after, c, rfl, hrest, hx⟩⟩

/-!
# Steps on every element of a list
-/

/-- The first element without a result decides. -/
theorem mapM_eq_error_iff {f : α -> Except ε β} {xs : List α} {e : ε} :
    xs.mapM f = .error e <->
      exists before x after vs, xs = before ++ x :: after ∧ before.mapM f = .ok vs ∧
        f x = .error e := by
  induction xs with
  | nil =>
      constructor
      · intro h
        cases h
      · intro h
        rcases h with ⟨before, x, after, vs, heq, _⟩
        exact (List.append_ne_nil_of_right_ne_nil before (List.cons_ne_nil x after) heq.symm).elim
  | cons y ys ih =>
      simp only [List.mapM_cons, bind_eq_error_iff, ih]
      constructor
      · intro h
        rcases h with hfirst | ⟨v, hv, hrest | ⟨vs, _, hpure⟩⟩
        · exact ⟨[], y, ys, [], rfl, rfl, hfirst⟩
        · rcases hrest with ⟨before, x, after, vs, rfl, hbefore, hx⟩
          refine ⟨y :: before, x, after, v :: vs, rfl, ?_, hx⟩
          rw [List.mapM_cons, hv, hbefore]
          rfl
        · cases hpure
      · intro h
        rcases h with ⟨before, x, after, vs, heq, hbefore, hx⟩
        cases before with
        | nil =>
            cases heq
            exact Or.inl hx
        | cons z before =>
            cases heq
            rw [List.mapM_cons] at hbefore
            rcases bind_eq_ok_iff.mp hbefore with ⟨v, hv, hrest⟩
            rcases bind_eq_ok_iff.mp hrest with ⟨vs, hvs, _⟩
            exact Or.inr ⟨v, hv, Or.inl ⟨before, x, after, vs, rfl, hvs, hx⟩⟩

theorem mapM_congr {f g : α -> Except ε β} {xs : List α} (h : forall x, x ∈ xs -> f x = g x) :
    xs.mapM f = xs.mapM g := by
  induction xs with
  | nil =>
      rfl
  | cons x xs ih =>
      rw [List.forall_mem_cons] at h
      rw [List.mapM_cons, List.mapM_cons, h.left, ih h.right]

/-- Results can be changed one by one or all together at the end. -/
theorem map_mapM {γ : Type} {f : α -> Except ε β} (g : β -> γ) (xs : List α) :
    (xs.mapM f).map (List.map g) = xs.mapM fun x => (f x).map g := by
  induction xs with
  | nil =>
      rfl
  | cons x xs ih =>
      rw [List.mapM_cons, List.mapM_cons, <- ih]
      cases f x with
      | error e => rfl
      | ok y =>
          cases xs.mapM f with
          | error e => rfl
          | ok ys => rfl

/-!
# Lists side by side
-/

/-- A relation that holds of one result for each member pairs a list with all results. -/
theorem forall₂_iff_map_eq {R : α -> β -> Prop} {f : α -> β} (h : forall x y, R x y <-> f x = y)
    {xs : List α} {ys : List β} : List.Forall₂ R xs ys <-> xs.map f = ys := by
  have hR : R = fun x y => f x = y := by
    funext x y
    exact propext (h x y)
  rw [hR, <- List.forall₂_map_left_iff, List.forall₂_eq_eq_eq]

end Asm65
