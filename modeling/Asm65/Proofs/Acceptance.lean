import Asm65.Proofs.Labels
import Asm65.Proofs.Resolution
import Asm65.Proofs.Scan

/-!
# Which programs are accepted

The checks of a run come at different times: a backward branch is checked when it is met,
a forward one at the end, and the end of memory with every byte.  Whether a program is
accepted can nevertheless be read off its layout, without any regard to an order.
-/

namespace Asm65

theorem Program.ofLines_eq_ok_iff {ls : List TokenLine} {program : Program} :
    ofLines ls = .ok program <->
      exists sts s, Statement.Reads ls sts ∧ State.start.steps sts = .ok s ∧
        s.finish = .ok program := by
  unfold ofLines
  rw [bind_eq_ok_iff]
  constructor
  · intro h
    rcases h with ⟨s, hlines, hfinish⟩
    rcases State.lines_eq_ok_iff.mp hlines with ⟨sts, hreads, hsteps⟩
    exact ⟨sts, s, hreads, hsteps, hfinish⟩
  · intro h
    rcases h with ⟨sts, s, hreads, hsteps, hfinish⟩
    exact ⟨s, State.lines_eq_ok_iff.mpr ⟨sts, hreads, hsteps⟩, hfinish⟩

namespace Layout

def table (sts : List Statement) : String -> Option Nat :=
  (Cursor.start.run sts).table

def Resolved (sts : List Statement) : Prop :=
  forall q, q ∈ sites sts -> forall kind l, q.statement.reference? = some (kind, l) ->
    exists target, table sts l.name = some target ∧ kind.Reaches target q.start

end Layout

namespace State

theorem admissible_of_steps {s : State} {sts : List Statement} (h : start.steps sts = .ok s) :
    forall q, q ∈ Layout.sites sts -> q.Admissible :=
  exists_steps_iff.mp ⟨s, h⟩

/-- The labels and the queue at the end of a scan are those of the layout. -/
theorem symbols_of_steps {s : State} {sts : List Statement} (h : start.steps sts = .ok s) :
    s.symbols.table = Layout.table sts ∧
      s.symbols.pending.toList = (Layout.sites sts).filterMap Site.fixup? := by
  have hfollows := follows_of_steps h
  constructor
  · rw [<- cursor_table, hfollows.cursor]
    rfl
  · exact hfollows.pending

theorem exists_finish_iff {s : State} {sts : List Statement} (h : start.steps sts = .ok s) :
    (exists program, s.finish = .ok program) <->
      forall q, q ∈ Layout.sites sts -> forall f, q.fixup? = some f ->
        f.Resolvable (Layout.table sts) := by
  have hsymbols := symbols_of_steps h
  have hpatches := Fixup.exists_patchAll_iff s.symbols s.image s.symbols.pending.toList
  simp only [hsymbols, List.mem_filterMap] at hpatches
  constructor
  · intro hfinish q hq f hf
    rcases hfinish with ⟨program, hprogram⟩
    rcases finish_eq_ok_iff.mp hprogram with ⟨image, himage, _⟩
    rw [hsymbols.right] at himage
    exact hpatches.mp ⟨image, himage⟩ f ⟨q, hq, hf⟩
  · intro hall
    have hresolvable : forall f, (exists q, q ∈ Layout.sites sts ∧ q.fixup? = some f) ->
        f.Resolvable (Layout.table sts) := by
      intro f hf
      rcases hf with ⟨q, hq, hfixup⟩
      exact hall q hq f hfixup
    rcases hpatches.mpr hresolvable with ⟨image, himage⟩
    rw [<- hsymbols.right] at himage
    exact ⟨_, finish_eq_ok_iff.mpr ⟨image, himage, rfl⟩⟩

end State

/-!
# Early and late checks together

A reference to a known label is checked on its line, any other at the end.  Both compare
with the address in the final table, because a label never moves.
-/

namespace Layout

theorem distinct_of_admissible {sts : List Statement}
    (h : forall q, q ∈ sites sts -> q.Admissible) : (Cursor.start.run sts).Distinct := by
  apply (run_distinct_iff Cursor.distinct_start).mpr
  intro q hq l hl
  exact ((h q hq).fresh l hl).right

theorem resolved_of_admissible {sts : List Statement}
    (h : forall q, q ∈ sites sts -> q.Admissible)
    (hfixups : forall q, q ∈ sites sts -> forall f, q.fixup? = some f ->
      f.Resolvable (table sts)) : Resolved sts := by
  intro q hq kind l hreference
  cases hknown : q.known l.name with
  | some target =>
      refine ⟨target, ?_, ?_⟩
      · exact table_run_of_known (distinct_of_admissible h) hq hknown
      · exact (h q hq).reaches kind l target hreference hknown
  | none =>
      -- the label was not known on its line, so the reference was queued with its address
      have hfixup : q.fixup? =
          some ⟨l, q.statement.line, UInt16.ofNat (q.start + 1), kind⟩ :=
        Site.fixup?_eq_some_iff.mpr
          ⟨kind, l, Site.deferred?_eq_some_iff.mpr ⟨hreference, hknown⟩, rfl⟩
      rcases hfixups q hq _ hfixup with ⟨target, htarget, hreach⟩
      rw [(h q hq).origin_of_fixup hfixup] at hreach
      exact ⟨target, htarget, hreach⟩

theorem admissible_of_resolved {sts : List Statement} (h : Resolved sts)
    (hdistinct : (Cursor.start.run sts).Distinct)
    (hfits : forall q, q ∈ sites sts -> q.start + q.statement.size ≤ 65536)
    (hlabels : forall q, q ∈ sites sts -> q.statement.label?.isSome -> q.start < 65536)
    {q : Site} (hq : q ∈ sites sts) : q.Admissible := by
  have hfresh := (run_distinct_iff Cursor.distinct_start).mp hdistinct q hq
  constructor
  · exact hfits q hq
  · intro l hl
    exact ⟨hlabels q hq (by rw [hl]; rfl), hfresh l hl⟩
  · intro kind l target hreference hknown
    rcases h q hq kind l hreference with ⟨found, hfound, hreach⟩
    have hsame : table sts l.name = some target := table_run_of_known hdistinct hq hknown
    rw [hfound] at hsame
    cases hsame
    exact hreach

theorem resolvable_of_resolved {sts : List Statement} (h : Resolved sts) {q : Site}
    (hq : q ∈ sites sts) (hadmissible : q.Admissible) {f : Fixup} (hf : q.fixup? = some f) :
    f.Resolvable (table sts) := by
  have horigin := hadmissible.origin_of_fixup hf
  rcases Site.fixup?_eq_some_iff.mp hf with ⟨kind, l, hdeferred, rfl⟩
  have hreference := (Site.deferred?_eq_some_iff.mp hdeferred).left
  rcases h q hq kind l hreference with ⟨target, htarget, hreach⟩
  refine ⟨target, htarget, ?_⟩
  rw [horigin]
  exact hreach

end Layout

theorem State.resolved_of_finish {s : State} {sts : List Statement} {program : Program}
    (hsteps : start.steps sts = .ok s) (hfinish : s.finish = .ok program) :
    Layout.Resolved sts :=
  Layout.resolved_of_admissible (admissible_of_steps hsteps)
    ((exists_finish_iff hsteps).mp ⟨program, hfinish⟩)

theorem State.exists_program_iff {sts : List Statement} :
    (exists s, start.steps sts = .ok s ∧ exists program, s.finish = .ok program) <->
      (Cursor.start.run sts).Distinct ∧
        (forall q, q ∈ Layout.sites sts -> q.start + q.statement.size ≤ 65536) ∧
        (forall q, q ∈ Layout.sites sts -> q.statement.label?.isSome -> q.start < 65536) ∧
        Layout.Resolved sts := by
  constructor
  · intro h
    rcases h with ⟨s, hsteps, hfinish⟩
    have hadmissible := admissible_of_steps hsteps
    have hfixups := (exists_finish_iff hsteps).mp hfinish
    refine ⟨Layout.distinct_of_admissible hadmissible, ?_, ?_,
      Layout.resolved_of_admissible hadmissible hfixups⟩
    · intro q hq
      exact (hadmissible q hq).fits
    · intro q hq hlabel
      rcases Option.isSome_iff_exists.mp hlabel with ⟨l, hl⟩
      exact ((hadmissible q hq).fresh l hl).left
  · intro h
    rcases h with ⟨hdistinct, hfits, hlabels, hresolved⟩
    have hadmissible : forall q, q ∈ Layout.sites sts -> q.Admissible := by
      intro q hq
      exact Layout.admissible_of_resolved hresolved hdistinct hfits hlabels hq
    rcases (exists_steps_iff (s := start)).mpr hadmissible with ⟨s, hsteps⟩
    refine ⟨s, hsteps, (exists_finish_iff hsteps).mpr ?_⟩
    intro q hq f hf
    exact Layout.resolvable_of_resolved hresolved hq (hadmissible q hq) hf

/-!
# The conditions on a program
-/

namespace Layout

/--
The conditions under which statements make up a program: no name is defined twice, no byte
lies behind the last address, no label is defined behind it either, every label that is
used is defined somewhere, and every branch to a label reaches it.
-/
structure Acceptable (sts : List Statement) : Prop where
  distinct : ((sts.filterMap Statement.label?).map LabelRef.name).Nodup
  fits : forall q, q ∈ sites sts -> q.start + q.statement.size ≤ 65536
  labels_fit : forall q, q ∈ sites sts -> q.statement.label?.isSome -> q.start ≤ 65535
  defined : forall st, st ∈ sts -> forall kind l, st.reference? = some (kind, l) ->
    exists d, d ∈ sts.filterMap Statement.label? ∧ d.name = l.name
  reaches : forall q, q ∈ sites sts -> forall l, q.statement.reference? = some (.relative, l) ->
    forall r, r ∈ sites sts -> forall d, r.statement.label? = some d -> d.name = l.name ->
      -128 ≤ (r.start : Int) - ((q.start : Int) + 2) ∧
        (r.start : Int) - ((q.start : Int) + 2) ≤ 127

theorem distinct_iff {sts : List Statement} :
    (Cursor.start.run sts).Distinct <->
      ((sts.filterMap Statement.label?).map LabelRef.name).Nodup := by
  unfold Cursor.Distinct
  rw [Cursor.names_run, Cursor.start, List.map_nil, List.append_nil]
  exact (List.reverse_perm _).nodup_iff

theorem statements_sitesFrom (c : Cursor) (sts : List Statement) :
    (sitesFrom c sts).map Site.statement = sts := by
  induction sts generalizing c with
  | nil =>
      rfl
  | cons st sts ih =>
      rw [sitesFrom, List.map_cons, ih]

theorem exists_site_iff {sts : List Statement} {st : Statement} :
    st ∈ sts <-> exists q, q ∈ sites sts ∧ q.statement = st := by
  have hmap : (sites sts).map Site.statement = sts := statements_sitesFrom .start sts
  rw [<- List.mem_map, hmap]

theorem resolved_iff {sts : List Statement} (h : (Cursor.start.run sts).Distinct) :
    Resolved sts <->
      (forall st, st ∈ sts -> forall kind l, st.reference? = some (kind, l) ->
        exists d, d ∈ sts.filterMap Statement.label? ∧ d.name = l.name) ∧
      (forall q, q ∈ sites sts ->
        forall l, q.statement.reference? = some (.relative, l) ->
          forall r, r ∈ sites sts -> forall d, r.statement.label? = some d ->
            d.name = l.name -> RefKind.relative.Reaches r.start q.start) := by
  constructor
  · intro hresolved
    constructor
    · intro st hst kind l hreference
      rcases exists_site_iff.mp hst with ⟨q, hq, rfl⟩
      rcases hresolved q hq kind l hreference with ⟨target, htarget, _⟩
      rcases (table_run_eq_some_iff h).mp htarget with ⟨r, hr, d, hd, hname, _⟩
      exact ⟨d, List.mem_filterMap.mpr ⟨r.statement, exists_site_iff.mpr ⟨r, hr, rfl⟩, hd⟩,
        hname⟩
    · intro q hq l hreference r hr d hd hname
      rcases hresolved q hq .relative l hreference with ⟨target, htarget, hreach⟩
      have hsame : table sts l.name = some r.start :=
        (table_run_eq_some_iff h).mpr ⟨r, hr, d, hd, hname, rfl⟩
      rw [htarget] at hsame
      cases hsame
      exact hreach
  · intro hconditions q hq kind l hreference
    rcases hconditions with ⟨hdefined, hreaches⟩
    have hst : q.statement ∈ sts := exists_site_iff.mpr ⟨q, hq, rfl⟩
    rcases hdefined q.statement hst kind l hreference with ⟨d, hd, hname⟩
    rcases List.mem_filterMap.mp hd with ⟨st, hmem, hlabel⟩
    rcases exists_site_iff.mp hmem with ⟨r, hr, rfl⟩
    refine ⟨r.start, (table_run_eq_some_iff h).mpr ⟨r, hr, d, hlabel, hname, rfl⟩, ?_⟩
    cases kind with
    | absolute => trivial
    | relative => exact hreaches q hq l hreference r hr d hlabel hname

theorem acceptable_iff {sts : List Statement} :
    Acceptable sts <->
      (Cursor.start.run sts).Distinct ∧
        (forall q, q ∈ sites sts -> q.start + q.statement.size ≤ 65536) ∧
        (forall q, q ∈ sites sts -> q.statement.label?.isSome -> q.start < 65536) ∧
        Resolved sts := by
  constructor
  · intro h
    have hdistinct := distinct_iff.mpr h.distinct
    refine ⟨hdistinct, h.fits, ?_, (resolved_iff hdistinct).mpr ⟨h.defined, h.reaches⟩⟩
    intro q hq hlabel
    exact Nat.lt_succ_of_le (h.labels_fit q hq hlabel)
  · intro h
    rcases h with ⟨hdistinct, hfits, hlabels, hresolved⟩
    rcases (resolved_iff hdistinct).mp hresolved with ⟨hdefined, hreaches⟩
    refine ⟨distinct_iff.mp hdistinct, hfits, ?_, hdefined, hreaches⟩
    intro q hq hlabel
    exact Nat.le_of_lt_succ (hlabels q hq hlabel)

end Layout

theorem Program.exists_ofLines_iff (ls : List TokenLine) :
    (exists program, ofLines ls = .ok program) <->
      exists sts, Statement.Reads ls sts ∧ Layout.Acceptable sts := by
  constructor
  · intro h
    rcases h with ⟨program, hprogram⟩
    rcases ofLines_eq_ok_iff.mp hprogram with ⟨sts, s, hreads, hsteps, hfinish⟩
    refine ⟨sts, hreads, Layout.acceptable_iff.mpr ?_⟩
    exact State.exists_program_iff.mp ⟨s, hsteps, program, hfinish⟩
  · intro h
    rcases h with ⟨sts, hreads, hacceptable⟩
    rcases State.exists_program_iff.mpr (Layout.acceptable_iff.mp hacceptable) with
      ⟨s, hsteps, program, hfinish⟩
    exact ⟨program, ofLines_eq_ok_iff.mpr ⟨sts, s, hreads, hsteps, hfinish⟩⟩

end Asm65
