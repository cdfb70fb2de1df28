import Asm65.Proofs.Layout

/-!
# The labels of a layout

The labels that a fold over statements collects are the definitions of the statements, each
with the address that its statement stands at.  If no name is defined twice, the order of
the collection does not matter: what is known at one statement stays known behind all of
the later ones.
-/

namespace Asm65
namespace Cursor

/-- No label is defined twice. -/
def Distinct (c : Cursor) : Prop :=
  (c.labels.map Prod.fst).Nodup

theorem distinct_start : start.Distinct :=
  List.nodup_nil

theorem lookup_eq_some_iff_of_nodup {es : List (String × Nat)} {name : String} {a : Nat}
    (h : (es.map Prod.fst).Nodup) : es.lookup name = some a <-> (name, a) ∈ es := by
  induction es with
  | nil =>
      simp
  | cons e es ih =>
      rcases e with ⟨key, value⟩
      rw [List.map_cons, List.nodup_cons] at h
      rw [List.lookup_cons, List.mem_cons, Prod.mk.injEq]
      by_cases hname : name = key
      · subst hname
        have habsent : (name, a) ∉ es := by
          intro hmem
          exact h.left (List.mem_map.mpr ⟨(name, a), hmem, rfl⟩)
        simp [habsent, eq_comm]
      · have hbeq : (name == key) = false := beq_eq_false_iff_ne.mpr hname
        simp [hbeq, hname, ih h.right]

theorem table_eq_some_iff {c : Cursor} {name : String} {a : Nat} (h : c.Distinct) :
    c.table name = some a <-> (name, a) ∈ c.labels :=
  lookup_eq_some_iff_of_nodup h

theorem table_eq_none_iff {c : Cursor} {name : String} :
    c.table name = none <-> name ∉ c.labels.map Prod.fst := by
  unfold table
  rw [List.lookup_eq_none_iff, List.mem_map]
  constructor
  · intro h hmem
    rcases hmem with ⟨e, he, hname⟩
    exact bne_iff_ne.mp (h e he) hname.symm
  · intro h e he
    rw [bne_iff_ne]
    intro hname
    exact h ⟨e, he, hname.symm⟩

/-!
## Definitions of later statements
-/

/-- Labels are only ever added. -/
theorem labels_suffix_run (c : Cursor) (sts : List Statement) :
    c.labels <:+ (c.run sts).labels := by
  induction sts generalizing c with
  | nil =>
      exact List.suffix_refl _
  | cons st sts ih =>
      exact (List.suffix_append (st.entries c.address) c.labels).trans (ih (c.next st))

theorem distinct_of_run {c : Cursor} {sts : List Statement} (h : (c.run sts).Distinct) :
    c.Distinct :=
  ((labels_suffix_run c sts).map Prod.fst).sublist.nodup h

theorem table_run_of_table {c : Cursor} {sts : List Statement} {name : String} {a : Nat}
    (h : (c.run sts).Distinct) (hname : c.table name = some a) :
    (c.run sts).table name = some a := by
  have hmem := (table_eq_some_iff (distinct_of_run h)).mp hname
  exact (table_eq_some_iff h).mpr ((labels_suffix_run c sts).subset hmem)

theorem names_run (c : Cursor) (sts : List Statement) :
    (c.run sts).labels.map Prod.fst =
      ((sts.filterMap Statement.label?).map LabelRef.name).reverse ++ c.labels.map Prod.fst := by
  induction sts generalizing c with
  | nil =>
      rfl
  | cons st sts ih =>
      rw [run_cons, ih, next]
      cases hlabel : st.label? with
      | none => simp [Statement.entries, hlabel]
      | some l => simp [Statement.entries, hlabel]

end Cursor

namespace Layout

theorem mem_labels_next {c : Cursor} {st : Statement} {name : String} {a : Nat} :
    (name, a) ∈ (c.next st).labels <->
      (exists l, st.label? = some l ∧ l.name = name ∧ (Site.mk c st).start = a) ∨
        (name, a) ∈ c.labels := by
  rw [Cursor.next, List.mem_append]
  simp [Statement.entries, Site.start]

theorem mem_labels_run {c : Cursor} {sts : List Statement} {name : String} {a : Nat} :
    (name, a) ∈ (c.run sts).labels <->
      (name, a) ∈ c.labels ∨
        exists q, q ∈ sitesFrom c sts ∧
          exists l, q.statement.label? = some l ∧ l.name = name ∧ q.start = a := by
  induction sts generalizing c with
  | nil =>
      simp [Cursor.run, sitesFrom]
  | cons st sts ih =>
      rw [Cursor.run_cons, ih, mem_labels_next, sitesFrom, or_assoc, or_left_comm]
      simp only [List.mem_cons, exists_eq_or_imp]

/-- The labels of a program, by the lines that define them. -/
theorem table_run_eq_some_iff {sts : List Statement} {name : String} {a : Nat}
    (h : (Cursor.start.run sts).Distinct) :
    (Cursor.start.run sts).table name = some a <->
      exists q, q ∈ sites sts ∧
        exists l, q.statement.label? = some l ∧ l.name = name ∧ q.start = a := by
  rw [Cursor.table_eq_some_iff h, mem_labels_run]
  constructor
  · intro hmem
    rcases hmem with hstart | hsite
    · cases hstart
    · exact hsite
  · exact Or.inr

theorem table_run_of_known {c : Cursor} {sts : List Statement} {q : Site} {name : String}
    {a : Nat} (h : (c.run sts).Distinct) (hq : q ∈ sitesFrom c sts)
    (hknown : q.known name = some a) : (c.run sts).table name = some a := by
  induction sts generalizing c with
  | nil =>
      cases hq
  | cons st sts ih =>
      rw [Cursor.run_cons] at h ⊢
      rcases List.mem_cons.mp hq with hhead | htail
      · subst hhead
        exact Cursor.table_run_of_table h hknown
      · exact ih h htail

/-!
## Fresh labels

A definition is checked against the labels before it.  That is as good as to compare all
definitions with each other.
-/

theorem next_distinct_iff {c : Cursor} {st : Statement} (hc : c.Distinct) :
    (c.next st).Distinct <-> forall l, st.label? = some l -> c.table l.name = none := by
  unfold Cursor.Distinct Cursor.next Statement.entries
  cases st.label? with
  | none =>
      simpa [Cursor.Distinct] using hc
  | some l =>
      simp only [Cursor.table_eq_none_iff, Option.toList_some, List.map_cons, List.map_nil,
        List.cons_append, List.nil_append, List.nodup_cons, Option.some.injEq, forall_eq']
      exact and_iff_left hc

theorem run_distinct_iff {c : Cursor} {sts : List Statement} (hc : c.Distinct) :
    (c.run sts).Distinct <->
      forall q, q ∈ sitesFrom c sts ->
        forall l, q.statement.label? = some l -> q.cursor.table l.name = none := by
  induction sts generalizing c with
  | nil =>
      simpa [Cursor.run, sitesFrom] using hc
  | cons st sts ih =>
      rw [Cursor.run_cons, sitesFrom, List.forall_mem_cons, <- next_distinct_iff hc]
      constructor
      · intro h
        -- the labels behind one statement are the oldest of those behind all of them
        have hnext := Cursor.distinct_of_run h
        exact ⟨hnext, (ih hnext).mp h⟩
      · intro h
        exact (ih h.left).mpr h.right

end Layout
end Asm65
