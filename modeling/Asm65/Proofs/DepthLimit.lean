import Asm65.Include
import Mathlib.Order.Basic

/-!
# The limit of inclusion

The limit is looked at in one place only, where a file would lie too deep.  So an expansion
that the limit does not stop would have gone the same way under every larger limit, through
the same files to the same lines or to the same failure.
-/

namespace Asm65
namespace Include

/--
The outcome `x` under a limit, compared with the outcome `y` under a larger one: they are the
same, or the limit has stopped the first.
-/
inductive Curbs (limit : Nat) {α : Type} :
    Except IncludeError α -> Except IncludeError α -> Prop where
  | same (x : Except IncludeError α) : Curbs limit x x
  | stopped (path : String) (y : Except IncludeError α) :
      Curbs limit (.error (.tooDeep path limit)) y

namespace Curbs

variable {limit : Nat} {α β : Type}

theorem bind {x y : Except IncludeError α} {f g : α -> Except IncludeError β}
    (hx : Curbs limit x y) (hf : forall a, Curbs limit (f a) (g a)) :
    Curbs limit (x >>= f) (y >>= g) := by
  cases hx with
  | same =>
      cases x with
      | error e => exact .same _
      | ok a => exact hf a
  | stopped path => exact .stopped path _

theorem map {x y : Except IncludeError α} (h : Curbs limit x y) (f : α -> β) :
    Curbs limit (x.map f) (y.map f) := by
  cases h with
  | same => exact .same _
  | stopped path => exact .stopped path _

/-- The limit can stop an expansion at any line; what comes behind that line no longer counts. -/
theorem mapM {f g : α -> Except IncludeError β} (h : forall a, Curbs limit (f a) (g a))
    (xs : List α) : Curbs limit (xs.mapM f) (xs.mapM g) := by
  induction xs with
  | nil => exact .same _
  | cons x xs ih =>
      rw [List.mapM_cons, List.mapM_cons]
      apply (h x).bind
      intro b
      apply ih.bind
      intro bs
      exact .same _

theorem eq_of_not_tooDeep {x y : Except IncludeError α} (h : Curbs limit x y)
    (hx : forall path limit', x ≠ .error (.tooDeep path limit')) : y = x := by
  cases h with
  | same => rfl
  | stopped path => exact (hx path limit rfl).elim

theorem eq_ok_or_tooDeep {x y : Except IncludeError α} (h : Curbs limit x y) {a : α}
    (hy : y = .ok a) : x = .ok a ∨ exists path, x = .error (.tooDeep path limit) := by
  cases h with
  | same => exact Or.inl hy
  | stopped path => exact Or.inr ⟨path, rfl⟩

end Curbs

/-!
# Expansions under two limits

A line, a text and a file are expanded alike under both limits, as long as the files that they
include are.
-/

section Expansion

variable {limit : Nat} {expand expand' : String -> Except IncludeError (List String)}

theorem curbs_expandLine (h : forall path, Curbs limit (expand path) (expand' path))
    (base : String) (file? : Option String) (line : String × Nat) :
    Curbs limit (expandLine base file? expand line) (expandLine base file? expand' line) := by
  unfold expandLine
  cases path? (Source.stripComment line.1) with
  | none => exact .same _
  | some path =>
      by_cases hempty : path.isEmpty
      · simp only [hempty, if_true]
        exact .same _
      · simp only [hempty]
        exact h (Path.join base path)

theorem curbs_expandText (h : forall path, Curbs limit (expand path) (expand' path))
    (base : String) (file? : Option String) (text : String) :
    Curbs limit (expandText base file? expand text) (expandText base file? expand' text) :=
  (Curbs.mapM (curbs_expandLine h base file?) _).map List.flatten

theorem curbs_expandWith (h : forall path, Curbs limit (expand path) (expand' path))
    (read : Reader) (path : String) :
    Curbs limit (expandWith read expand path) (expandWith read expand' path) := by
  unfold expandWith
  cases read path with
  | error cause => exact .same _
  | ok text => exact curbs_expandText h (Path.parent path) (some path) text

end Expansion

/-- By induction on the levels that are left under the smaller limit, which run out first. -/
theorem curbs_expandIncluded (read : Reader) (limit limit' : Nat) {levels levels' : Nat}
    (h : levels ≤ levels') (path : String) :
    Curbs limit (expandIncluded read limit levels path)
      (expandIncluded read limit' levels' path) := by
  induction levels generalizing levels' path with
  | zero => exact .stopped path _
  | succ levels ih =>
      cases levels' with
      | zero => cases h
      | succ levels' => exact curbs_expandWith (ih (Nat.le_of_succ_le_succ h)) read path

/--
What two limits have to do with each other, given the outcomes `x` under the smaller limit and
`y` under the larger one.
-/
structure Relaxes (limit : Nat) (x y : Except IncludeError (List String)) : Prop where
  /-- Lines, and failures for any other reason than depth, do not change. -/
  keeps : (forall path limit', x ≠ .error (.tooDeep path limit')) -> y = x
  /-- Lines that the larger limit allows are the lines under the smaller one, or too deep for it. -/
  allows : forall lines, y = .ok lines ->
    x = .ok lines ∨ exists path, x = .error (.tooDeep path limit)

theorem Curbs.relaxes {limit : Nat} {x y : Except IncludeError (List String)}
    (h : Curbs limit x y) : Relaxes limit x y :=
  ⟨h.eq_of_not_tooDeep, fun _ hy => h.eq_ok_or_tooDeep hy⟩

/-- The limit of inclusion only matters where it is hit, for files and for texts. -/
theorem relaxes_of_limit_le (read : Reader) {limit limit' : Nat} (h : limit ≤ limit') :
    (forall path, Relaxes limit (ofFile read limit path) (ofFile read limit' path)) ∧
    forall base text,
      Relaxes limit (ofText read limit base text) (ofText read limit' base text) := by
  have hincluded := curbs_expandIncluded read limit limit' h
  constructor
  · intro path
    exact (curbs_expandWith hincluded read path).relaxes
  · intro base text
    exact (curbs_expandText hincluded base none text).relaxes

/-- A library that cannot be expanded, for a reason that comes behind a file two levels down. -/
def brokenLibrary : Reader
  | "main" => .ok "nop\n.include lib/all"
  | "lib/all" => .ok ".include io\n.include"
  | "lib/io" => .ok "rts"
  | _ => .error .notFound

theorem brokenLibrary_under_larger_limits :
    ofFile brokenLibrary 1 "main" = .error (.tooDeep "lib/io" 1) ∧
      ofFile brokenLibrary 2 "main" = .error (.missingPath (some "lib/all") 2) ∧
      ofFile brokenLibrary 64 "main" = .error (.missingPath (some "lib/all") 2) ∧
      ofText brokenLibrary 1 "lib" ".include io" = .ok ["RTS"] ∧
      (ofText brokenLibrary 0 "lib" ".include io" = .ok ["RTS"] ∨
        exists path, ofText brokenLibrary 0 "lib" ".include io" = .error (.tooDeep path 0)) := by
  have hstops : ofFile brokenLibrary 1 "main" = .error (.tooDeep "lib/io" 1) := by
    decide +kernel
  have hfails : ofFile brokenLibrary 2 "main" = .error (.missingPath (some "lib/all") 2) := by
    decide +kernel
  have hreads : ofText brokenLibrary 1 "lib" ".include io" = .ok ["RTS"] := by
    decide +kernel
  have hfile := (relaxes_of_limit_le brokenLibrary (show 2 ≤ 64 by decide)).left "main"
  have htext := (relaxes_of_limit_le brokenLibrary (Nat.zero_le 1)).right "lib" ".include io"
  refine ⟨hstops, hfails, ?_, hreads, htext.allows _ hreads⟩
  rw [hfails] at hfile
  apply hfile.keeps
  intro path limit' h
  cases h

end Include
end Asm65
