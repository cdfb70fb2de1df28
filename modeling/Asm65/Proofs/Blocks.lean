import Asm65.Proofs.Overwriting
import Mathlib.Data.List.Nodup
import Mathlib.Data.List.Pairwise
import Mathlib.Data.List.Perm.Basic

/-!
# Blocks in another order

A block begins with an origin that has no label, so the addresses within it do not depend on
what stands before it.  Blocks that are put in another order therefore keep their statements
at their addresses, although a reference that was resolved at once may now have to wait, and
the other way round.  If no two statements cover the same address, the program stays the
same.
-/

namespace Asm65

/-!
# Statements at the same place
-/

/-- The statement does nothing but move to another address. -/
def Statement.OnlyMoves (st : Statement) : Prop :=
  st.label? = none ∧ st.origin?.isSome

namespace Site

/-- The same statement at the same address.  From where an origin moves does not matter. -/
structure Same (q r : Site) : Prop where
  statement : q.statement = r.statement
  start : q.start = r.start ∨ q.statement.OnlyMoves

namespace Same

variable {q r : Site}

theorem start_of_label (h : q.Same r) (hlabel : q.statement.label?.isSome) :
    q.start = r.start := by
  rcases h.start with hstart | hmoves
  · exact hstart
  · rw [hmoves.left] at hlabel
    cases hlabel

theorem start_of_no_origin (h : q.Same r) (horigin : q.statement.origin? = none) :
    q.start = r.start := by
  rcases h.start with hstart | hmoves
  · exact hstart
  · have hsome := hmoves.right
    rw [horigin] at hsome
    cases hsome

theorem start_of_covers {a : Nat} (h : q.Same r) (hcovers : q.Covers a) : q.start = r.start := by
  apply h.start_of_no_origin
  cases horigin : q.statement.origin? with
  | none =>
      rfl
  | some origin =>
      -- an origin has no bytes, so it covers nothing
      have hlt := hcovers.right
      rw [Statement.size_of_origin horigin] at hlt
      exact (Nat.not_lt.mpr hcovers.left hlt).elim

theorem covers {a : Nat} (h : q.Same r) (hcovers : q.Covers a) : r.Covers a := by
  have hstart := h.start_of_covers hcovers
  rw [Covers, hstart, h.statement] at hcovers
  exact hcovers

theorem write {a : Nat} (h : q.Same r) (hcovers : q.Covers a)
    (table : String -> Option Nat) : q.write table = r.write table := by
  rw [Site.write, Site.write, code, code, h.start_of_covers hcovers, h.statement]

theorem reach (h : q.Same r) : q.reach = r.reach := by
  unfold Site.reach
  rw [<- h.statement]
  cases horigin : q.statement.origin? with
  | some a => rfl
  | none => rw [h.start_of_no_origin horigin]

end Same

/-- No address is covered by both. -/
def Apart (q r : Site) : Prop :=
  forall a, ¬ (q.Covers a ∧ r.Covers a)

instance : Std.Symm Apart where
  symm _ _ h a hboth := h a hboth.symm

theorem apart_iff {q r : Site} :
    q.Apart r <->
      q.statement.size = 0 ∨ r.statement.size = 0 ∨
        q.start + q.statement.size ≤ r.start ∨ r.start + r.statement.size ≤ q.start := by
  unfold Apart Covers
  constructor
  · intro h
    -- two intervals that meet have the larger of their starts in common
    have hmax := h (max q.start r.start)
    omega
  · intro h a
    omega

instance (q r : Site) : Decidable (q.Apart r) :=
  decidable_of_iff _ apart_iff.symm

end Site

/-!
# Sites of blocks
-/

namespace Layout

theorem sitesFrom_append (c : Cursor) (sts sts' : List Statement) :
    sitesFrom c (sts ++ sts') = sitesFrom c sts ++ sitesFrom (c.run sts) sts' := by
  induction sts generalizing c with
  | nil =>
      rfl
  | cons st sts ih =>
      rw [List.cons_append, sitesFrom, ih]
      rfl

theorem exists_block_of_mem {c : Cursor} {bs : List (List Statement)} {q : Site}
    (h : q ∈ sitesFrom c bs.flatten) :
    exists b, b ∈ bs ∧ exists d, q ∈ sitesFrom d b := by
  induction bs generalizing c with
  | nil =>
      cases h
  | cons b bs ih =>
      rw [List.flatten_cons, sitesFrom_append, List.mem_append] at h
      rcases h with hfirst | hrest
      · exact ⟨b, List.mem_cons_self, c, hfirst⟩
      · rcases ih hrest with ⟨b', hb', d, hq⟩
        exact ⟨b', List.mem_cons_of_mem b hb', d, hq⟩

theorem exists_cursor_of_block {b : List Statement} {bs : List (List Statement)} (h : b ∈ bs)
    (c : Cursor) : exists d, sitesFrom d b ⊆ sitesFrom c bs.flatten := by
  induction bs generalizing c with
  | nil =>
      cases h
  | cons b' bs ih =>
      rw [List.flatten_cons, sitesFrom_append]
      rcases List.mem_cons.mp h with rfl | hrest
      · exact ⟨c, List.subset_append_left _ _⟩
      · rcases ih hrest (c.run b') with ⟨d, hd⟩
        exact ⟨d, List.subset_append_of_subset_right _ hd⟩

theorem exists_same_of_address {c d : Cursor} {sts : List Statement} {q : Site}
    (haddress : c.address = d.address) (h : q ∈ sitesFrom c sts) :
    exists r, r ∈ sitesFrom d sts ∧ q.Same r := by
  induction sts generalizing c d with
  | nil =>
      cases h
  | cons st sts ih =>
      rcases List.mem_cons.mp h with rfl | hrest
      · exact ⟨⟨d, st⟩, List.mem_cons_self, rfl, Or.inl haddress⟩
      · have hnext : (c.next st).address = (d.next st).address := congrArg st.after haddress
        rcases ih hnext hrest with ⟨r, hr, hsame⟩
        exact ⟨r, List.mem_cons_of_mem _ hr, hsame⟩

/-- The statements begin with an origin that has no label. -/
def IsBlock (sts : List Statement) : Prop :=
  exists st rest, sts = st :: rest ∧ st.OnlyMoves

theorem IsBlock.exists_same {b : List Statement} {c : Cursor} {q : Site} (hb : IsBlock b)
    (h : q ∈ sitesFrom c b) (d : Cursor) : exists r, r ∈ sitesFrom d b ∧ q.Same r := by
  rcases hb with ⟨st, rest, rfl, hmoves⟩
  rcases List.mem_cons.mp h with rfl | hrest
  · exact ⟨⟨d, st⟩, List.mem_cons_self, rfl, Or.inr hmoves⟩
  · have hnext : (c.next st).address = (d.next st).address := by
      rcases Option.isSome_iff_exists.mp hmoves.right with ⟨a, ha⟩
      simp only [Cursor.next, Statement.after, ha]
    rcases exists_same_of_address hnext hrest with ⟨r, hr, hsame⟩
    exact ⟨r, List.mem_cons_of_mem _ hr, hsame⟩

/-- The same statements in another order, each at its address. -/
structure Rearranged (sts sts' : List Statement) : Prop where
  perm : sts.Perm sts'
  sites : forall q, q ∈ sites sts -> exists r, r ∈ Layout.sites sts' ∧ q.Same r
  sites_back : forall r, r ∈ Layout.sites sts' -> exists q, q ∈ Layout.sites sts ∧ r.Same q

theorem Rearranged.symm {sts sts' : List Statement} (h : Rearranged sts sts') :
    Rearranged sts' sts :=
  ⟨h.perm.symm, h.sites_back, h.sites⟩

theorem exists_same_of_perm {bs bs' : List (List Statement)} (hperm : bs.Perm bs')
    (hblocks : forall b, b ∈ bs -> IsBlock b) {q : Site} (h : q ∈ sites bs.flatten) :
    exists r, r ∈ sites bs'.flatten ∧ q.Same r := by
  rcases exists_block_of_mem h with ⟨b, hb, c, hq⟩
  rcases exists_cursor_of_block (hperm.mem_iff.mp hb) .start with ⟨d, hd⟩
  rcases (hblocks b hb).exists_same hq d with ⟨r, hr, hsame⟩
  exact ⟨r, hd hr, hsame⟩

theorem rearranged_of_perm {bs bs' : List (List Statement)} (hperm : bs.Perm bs')
    (hblocks : forall b, b ∈ bs -> IsBlock b) : Rearranged bs.flatten bs'.flatten := by
  constructor
  · exact hperm.flatten
  · intro q hq
    exact exists_same_of_perm hperm hblocks hq
  · intro r hr
    apply exists_same_of_perm hperm.symm _ hr
    intro b hb
    exact hblocks b (hperm.mem_iff.mpr hb)

/-!
# What stays the same in another order
-/

/-- It is enough to look at the statements that emit something: an origin only starts where
the statement before it ends. -/
theorem fits_of_no_origin {c : Cursor} {sts : List Statement} (hc : c.address ≤ 65536)
    (h : forall q, q ∈ sitesFrom c sts -> q.statement.origin? = none ->
      q.start + q.statement.size ≤ 65536) :
    forall q, q ∈ sitesFrom c sts -> q.start + q.statement.size ≤ 65536 := by
  induction sts generalizing c with
  | nil =>
      intro q hq
      cases hq
  | cons st sts ih =>
      rw [sitesFrom, List.forall_mem_cons] at h ⊢
      cases horigin : st.origin? with
      | none =>
          have hfits := h.left horigin
          refine ⟨hfits, ih ?_ h.right⟩
          simp only [Cursor.next, Statement.after, horigin]
          exact hfits
      | some a =>
          refine ⟨?_, ih ?_ h.right⟩
          · rw [Statement.size_of_origin horigin]
            exact hc
          · simp only [Cursor.next, Statement.after, horigin]
            exact Nat.le_of_lt a.toNat_lt

theorem extent_le_iff {qs : List Site} {n : Nat} :
    extent qs ≤ n <-> forall q, q ∈ qs -> q.reach ≤ n := by
  induction qs with
  | nil =>
      simp [extent]
  | cons q qs ih =>
      rw [List.forall_mem_cons, <- ih]
      exact Nat.max_le

/-- No address is covered by two of the sites. -/
def Disjoint (qs : List Site) : Prop :=
  qs.Pairwise Site.Apart

instance (qs : List Site) : Decidable (Disjoint qs) :=
  inferInstanceAs (Decidable (qs.Pairwise _))

theorem Disjoint.eq_of_covers {qs : List Site} {q r : Site} {a : Nat} (h : Disjoint qs)
    (hq : q ∈ qs) (hr : r ∈ qs) (hcovers : q.Covers a) (hcovers' : r.Covers a) : q = r := by
  by_contra hne
  exact List.Pairwise.forall h hq hr hne a ⟨hcovers, hcovers'⟩

theorem byteAt_eq_zero {qs : List Site} {table : String -> Option Nat} {a : Nat}
    (h : forall q, q ∈ qs -> ¬ q.Covers a) : byteAt qs table a = 0 := by
  rw [byteAt, last?_patches_eq_none table h, last?_writes_eq_none table h]
  rfl

/-- The byte at an address that is covered belongs to a site that covers it. -/
theorem exists_byte?_eq_byteAt {qs : List Site} {q : Site} {a : Nat}
    (table : String -> Option Nat) (hq : q ∈ qs) (hcovers : q.Covers a) :
    exists r, r ∈ qs ∧ (r.write table).byte? a = some (byteAt qs table a) := by
  unfold byteAt
  cases hpatches : Write.last? (qs.filterMap (Site.patch? table)) a with
  | some b =>
      rcases Write.exists_of_last? hpatches with ⟨w, hw, hbyte⟩
      rcases List.mem_filterMap.mp hw with ⟨r, hr, hpatch⟩
      exact ⟨r, hr, (Site.byte?_of_patch hpatch hbyte).right⟩
  | none =>
      cases hwrites : Write.last? (qs.map (Site.write table)) a with
      | some b =>
          rcases Write.exists_of_last? hwrites with ⟨w, hw, hbyte⟩
          rcases List.mem_map.mp hw with ⟨r, hr, rfl⟩
          exact ⟨r, hr, hbyte⟩
      | none =>
          have hmiss := Write.last?_eq_none_iff.mp hwrites _ (List.mem_map_of_mem hq)
          exact (Site.byte?_write_eq_none_iff.mp hmiss hcovers).elim

namespace Rearranged

variable {sts sts' : List Statement}

theorem acceptable (h : Rearranged sts sts') (hacceptable : Acceptable sts) :
    Acceptable sts' := by
  have hlabels := h.perm.filterMap Statement.label?
  constructor
  · exact ((hlabels.map LabelRef.name).nodup_iff).mp hacceptable.distinct
  · apply fits_of_no_origin (Nat.zero_le _)
    intro r hr horigin
    rcases h.sites_back r hr with ⟨q, hq, hsame⟩
    rw [hsame.start_of_no_origin horigin, hsame.statement]
    exact hacceptable.fits q hq
  · intro r hr hlabel
    rcases h.sites_back r hr with ⟨q, hq, hsame⟩
    rw [hsame.start_of_label hlabel]
    rw [hsame.statement] at hlabel
    exact hacceptable.labels_fit q hq hlabel
  · intro st hst kind l hreference
    rcases hacceptable.defined st (h.perm.mem_iff.mpr hst) kind l hreference with ⟨d, hd, hname⟩
    exact ⟨d, hlabels.mem_iff.mp hd, hname⟩
  · intro q hq l hreference r hr d hd hname
    rcases h.sites_back q hq with ⟨q', hq', hsame⟩
    rcases h.sites_back r hr with ⟨r', hr', hsame'⟩
    rw [hsame.start_of_no_origin (Statement.origin?_of_reference hreference),
      hsame'.start_of_label (by rw [hd]; rfl)]
    rw [hsame.statement] at hreference
    rw [hsame'.statement] at hd
    exact hacceptable.reaches q' hq' l hreference r' hr' d hd hname

theorem mem_labels (h : Rearranged sts sts') {name : String} {a : Nat}
    (hmem : (name, a) ∈ (Cursor.start.run sts).labels) :
    (name, a) ∈ (Cursor.start.run sts').labels := by
  rcases mem_labels_run.mp hmem with hstart | ⟨q, hq, l, hl, hname, rfl⟩
  · cases hstart
  · rcases h.sites q hq with ⟨r, hr, hsame⟩
    apply mem_labels_run.mpr
    rw [hsame.start_of_label (by rw [hl]; rfl)]
    rw [hsame.statement] at hl
    exact Or.inr ⟨r, hr, l, hl, hname, rfl⟩

theorem labels_perm (h : Rearranged sts sts') (hdistinct : (Cursor.start.run sts).Distinct)
    (hdistinct' : (Cursor.start.run sts').Distinct) :
    (Cursor.start.run sts).labels.Perm (Cursor.start.run sts').labels := by
  rw [List.perm_ext_iff_of_nodup (List.Nodup.of_map Prod.fst hdistinct)
    (List.Nodup.of_map Prod.fst hdistinct')]
  intro e
  exact ⟨h.mem_labels, h.symm.mem_labels⟩

theorem table (h : Rearranged sts sts') (hdistinct : (Cursor.start.run sts).Distinct)
    (hdistinct' : (Cursor.start.run sts').Distinct) : Layout.table sts = Layout.table sts' := by
  funext name
  apply Option.ext
  intro a
  rw [Layout.table, Layout.table, Cursor.table_eq_some_iff hdistinct,
    Cursor.table_eq_some_iff hdistinct']
  exact ⟨h.mem_labels, h.symm.mem_labels⟩

theorem extent_le (h : Rearranged sts sts') :
    extent (Layout.sites sts) ≤ extent (Layout.sites sts') := by
  apply extent_le_iff.mpr
  intro q hq
  rcases h.sites q hq with ⟨r, hr, hsame⟩
  rw [hsame.reach]
  exact extent_le_iff.mp (Nat.le_refl _) r hr

theorem extent_eq (h : Rearranged sts sts') :
    extent (Layout.sites sts) = extent (Layout.sites sts') :=
  Nat.le_antisymm h.extent_le h.symm.extent_le

theorem byteAt_eq (h : Rearranged sts sts') (hdisjoint : Disjoint (Layout.sites sts))
    (table : String -> Option Nat) (a : Nat) :
    byteAt (Layout.sites sts) table a = byteAt (Layout.sites sts') table a := by
  by_cases hcovered : exists q, q ∈ Layout.sites sts ∧ q.Covers a
  · rcases hcovered with ⟨q, hq, hcovers⟩
    rcases h.sites q hq with ⟨r, hr, hsame⟩
    rcases exists_byte?_eq_byteAt table hq hcovers with ⟨q₁, hq₁, hbyte⟩
    rcases exists_byte?_eq_byteAt table hr (hsame.covers hcovers) with ⟨r₁, hr₁, hbyte'⟩
    -- the last site to cover the address is the only one, in either order
    rcases h.sites_back r₁ hr₁ with ⟨q₂, hq₂, hsame₂⟩
    have hcovers₂ := Site.covers_of_byte? hbyte'
    have heq := hdisjoint.eq_of_covers hq₁ hq₂ (Site.covers_of_byte? hbyte)
      (hsame₂.covers hcovers₂)
    rw [hsame₂.write hcovers₂, <- heq, hbyte] at hbyte'
    exact Option.some.inj hbyte'
  · rw [byteAt_eq_zero, byteAt_eq_zero]
    · intro r hr hcovers
      rcases h.sites_back r hr with ⟨q, hq, hsame⟩
      exact hcovered ⟨q, hq, hsame.covers hcovers⟩
    · intro q hq hcovers
      exact hcovered ⟨q, hq, hcovers⟩

end Rearranged
end Layout

/-!
# Lines
-/

/-- The lines begin with an origin that has no label. -/
def TokenLine.IsBlock (ls : List TokenLine) : Prop :=
  exists l rest st, ls = l :: rest ∧ Statement.ofLine l = .ok st ∧ st.OnlyMoves

namespace Statement

theorem reads_unique {ls : List TokenLine} {sts sts' : List Statement} (h : Reads ls sts)
    (h' : Reads ls sts') : sts = sts' := by
  apply List.right_unique_forall₂' _ h h'
  intro l st st' hst hst'
  rw [hst] at hst'
  exact Except.ok.inj hst'

theorem exists_reads_append {xs ys : List TokenLine} {sts : List Statement}
    (h : Reads (xs ++ ys) sts) :
    exists sts₁ sts₂, sts = sts₁ ++ sts₂ ∧ Reads xs sts₁ ∧ Reads ys sts₂ := by
  have hfirst := List.forall₂_take_append sts xs ys h.flip
  have hrest := List.forall₂_drop_append sts xs ys h.flip
  exact ⟨sts.take xs.length, sts.drop xs.length, (List.take_append_drop _ _).symm,
    hfirst.flip, hrest.flip⟩

theorem exists_reads_blocks {bs : List (List TokenLine)} {sts : List Statement}
    (h : Reads bs.flatten sts) : exists bss, List.Forall₂ Reads bs bss ∧ sts = bss.flatten := by
  induction bs generalizing sts with
  | nil =>
      exact ⟨[], .nil, List.forall₂_nil_left_iff.mp h⟩
  | cons b bs ih =>
      rcases exists_reads_append h with ⟨sts₁, sts₂, rfl, hfirst, hrest⟩
      rcases ih hrest with ⟨bss, hbss, rfl⟩
      exact ⟨sts₁ :: bss, .cons hfirst hbss, rfl⟩

theorem isBlock_of_reads {ls : List TokenLine} {sts : List Statement}
    (hblock : TokenLine.IsBlock ls) (h : Reads ls sts) : Layout.IsBlock sts := by
  rcases hblock with ⟨l, rest, st, rfl, hst, hmoves⟩
  cases h with
  | cons hfirst _ =>
      rw [hst] at hfirst
      cases hfirst
      exact ⟨st, _, rfl, hmoves⟩

theorem isBlock_of_reads_blocks {bs : List (List TokenLine)} {bss : List (List Statement)}
    (hblocks : forall b, b ∈ bs -> TokenLine.IsBlock b) (h : List.Forall₂ Reads bs bss) :
    forall b, b ∈ bss -> Layout.IsBlock b := by
  induction h with
  | nil =>
      intro b hb
      cases hb
  | cons hfirst _ ih =>
      rw [List.forall_mem_cons] at hblocks ⊢
      exact ⟨isBlock_of_reads hblocks.left hfirst, ih hblocks.right⟩

theorem exists_rearranged {bs bs' : List (List TokenLine)} {sts : List Statement}
    (hperm : bs.Perm bs') (hblocks : forall b, b ∈ bs -> TokenLine.IsBlock b)
    (h : Reads bs.flatten sts) :
    exists sts', Reads bs'.flatten sts' ∧ Layout.Rearranged sts sts' := by
  rcases exists_reads_blocks h with ⟨bss, hbss, rfl⟩
  rcases List.perm_comp_forall₂ hperm.symm hbss with ⟨bss', hbss', hperm'⟩
  refine ⟨bss'.flatten, List.rel_flatten hbss', ?_⟩
  exact Layout.rearranged_of_perm hperm'.symm (isBlock_of_reads_blocks hblocks hbss)

end Statement

namespace State

/-- The final labels of a program are those of its layout. -/
theorem labels_of_finish {s : State} {sts : List Statement} {program : Program}
    (hsteps : start.steps sts = .ok s) (hfinish : s.finish = .ok program) :
    program.symbols.labels.map (fun e => (e.1, e.2.toNat)) =
      (Cursor.start.run sts).labels := by
  rcases finish_eq_ok_iff.mp hfinish with ⟨image, _, rfl⟩
  exact congrArg Cursor.labels (follows_of_steps hsteps).cursor

theorem table_of_finish {s : State} {sts : List Statement} {program : Program}
    (hsteps : start.steps sts = .ok s) (hfinish : s.finish = .ok program) :
    program.symbols.table = Layout.table sts := by
  rcases finish_eq_ok_iff.mp hfinish with ⟨image, _, rfl⟩
  exact (symbols_of_steps hsteps).left

end State

namespace Program

/-- The same image and the same labels. -/
structure Same (program program' : Program) : Prop where
  image : program.image = program'.image
  labels : program.symbols.labels.Perm program'.symbols.labels
  address : forall name, program.symbols.address? name = program'.symbols.address? name

theorem same_of_rearranged {sts sts' : List Statement} {s s' : State}
    {program program' : Program} (h : Layout.Rearranged sts sts')
    (hdisjoint : Layout.Disjoint (Layout.sites sts))
    (hsteps : State.start.steps sts = .ok s) (hfinish : s.finish = .ok program)
    (hsteps' : State.start.steps sts' = .ok s') (hfinish' : s'.finish = .ok program') :
    Same program program' := by
  have hdistinct := Layout.distinct_of_admissible (State.admissible_of_steps hsteps)
  have hdistinct' := Layout.distinct_of_admissible (State.admissible_of_steps hsteps')
  have htable := h.table hdistinct hdistinct'
  constructor
  · apply Image.ext_byte
    · rw [State.size_of_finish hsteps hfinish, State.size_of_finish hsteps' hfinish', h.extent_eq]
    · intro a
      rw [State.byteAt_table_of_finish hsteps hfinish,
        State.byteAt_table_of_finish hsteps' hfinish', htable]
      exact h.byteAt_eq hdisjoint _ a
  · have hlabels := h.labels_perm hdistinct hdistinct'
    rw [<- State.labels_of_finish hsteps hfinish,
      <- State.labels_of_finish hsteps' hfinish'] at hlabels
    exact (List.map_perm_map_iff toNat_entry_injective).mp hlabels
  · intro name
    rw [<- State.table_of_finish hsteps hfinish,
      <- State.table_of_finish hsteps' hfinish'] at htable
    have hname := congrFun htable name
    exact Option.map_injective (fun _ _ => UInt16.toNat_inj.mp) hname

theorem exists_ofLines_of_perm {bs bs' : List (List TokenLine)} (hperm : bs.Perm bs')
    (hblocks : forall b, b ∈ bs -> TokenLine.IsBlock b)
    (h : exists program, ofLines bs.flatten = .ok program) :
    exists program, ofLines bs'.flatten = .ok program := by
  rcases h with ⟨program, hprogram⟩
  rcases ofLines_eq_ok_iff.mp hprogram with ⟨sts, s, hreads, hsteps, hfinish⟩
  have hacceptable := Layout.acceptable_iff.mpr
    (State.exists_program_iff.mp ⟨s, hsteps, program, hfinish⟩)
  rcases Statement.exists_rearranged hperm hblocks hreads with ⟨sts', hreads', hrearranged⟩
  rcases State.exists_program_iff.mpr
    (Layout.acceptable_iff.mp (hrearranged.acceptable hacceptable)) with
    ⟨s', hsteps', program', hfinish'⟩
  exact ⟨program', ofLines_eq_ok_iff.mpr ⟨sts', s', hreads', hsteps', hfinish'⟩⟩

theorem ofLines_flatten_perm {bs bs' : List (List TokenLine)} (hperm : bs.Perm bs')
    (hblocks : forall b, b ∈ bs -> TokenLine.IsBlock b)
    (hdisjoint : forall sts, Statement.Reads bs.flatten sts ->
      Layout.Disjoint (Layout.sites sts)) :
    ((exists program, ofLines bs.flatten = .ok program) <->
      exists program', ofLines bs'.flatten = .ok program') ∧
    forall program program', ofLines bs.flatten = .ok program ->
      ofLines bs'.flatten = .ok program' -> Same program program' := by
  constructor
  · constructor
    · exact exists_ofLines_of_perm hperm hblocks
    · apply exists_ofLines_of_perm hperm.symm
      intro b hb
      exact hblocks b (hperm.mem_iff.mpr hb)
  · intro program program' h h'
    rcases ofLines_eq_ok_iff.mp h with ⟨sts, s, hreads, hsteps, hfinish⟩
    rcases ofLines_eq_ok_iff.mp h' with ⟨sts', s', hreads', hsteps', hfinish'⟩
    rcases Statement.exists_rearranged hperm hblocks hreads with ⟨found, hfound, hrearranged⟩
    rw [Statement.reads_unique hfound hreads'] at hrearranged
    exact same_of_rearranged hrearranged (hdisjoint sts hreads) hsteps hfinish hsteps' hfinish'

/-- Two blocks that refer to each other. -/
def crossBlocks : List (List TokenLine) :=
  [[⟨1, [.directive "ORG", .number 2]⟩,
      ⟨2, [.label "ONE", .colon, .mnemonic .jmp, .label "TWO"]⟩],
    [⟨3, [.directive "ORG", .number 8]⟩,
      ⟨4, [.label "TWO", .colon, .mnemonic .bne, .label "ONE"]⟩]]

def crossStatements : List Statement :=
  [⟨1, none, some (.directive (.origin 2))⟩,
    ⟨2, some ⟨"ONE", 1⟩, some (.instruction ⟨.jmp, .absolute (.label ⟨"TWO", 4⟩), 0x4C, rfl⟩)⟩,
    ⟨3, none, some (.directive (.origin 8))⟩,
    ⟨4, some ⟨"TWO", 1⟩, some (.instruction ⟨.bne, .relative (.label ⟨"ONE", 4⟩), 0xD0, rfl⟩)⟩]

theorem reads_crossBlocks : Statement.Reads crossBlocks.flatten crossStatements :=
  .cons rfl (.cons rfl (.cons rfl (.cons rfl .nil)))

theorem isBlock_crossBlocks : forall b, b ∈ crossBlocks -> TokenLine.IsBlock b := by
  intro b hb
  rcases List.mem_pair.mp hb with rfl | rfl
  · exact ⟨_, _, _, rfl, rfl, rfl, rfl⟩
  · exact ⟨_, _, _, rfl, rfl, rfl, rfl⟩

/-- Of the jump and the branch, the one in the earlier block has to wait for its label. -/
theorem crossBlocks_in_either_order :
    (ofLines crossBlocks.flatten).map Program.image =
        .ok #[0, 0, 0x4C, 8, 0, 0, 0, 0, 0xD0, 0xF8] ∧
      (ofLines crossBlocks.reverse.flatten).map Program.image =
        .ok #[0, 0, 0x4C, 8, 0, 0, 0, 0, 0xD0, 0xF8] ∧
      (forall b, b ∈ crossBlocks -> TokenLine.IsBlock b) ∧
      Layout.Disjoint (Layout.sites crossStatements) ∧
      forall program program', ofLines crossBlocks.flatten = .ok program ->
        ofLines crossBlocks.reverse.flatten = .ok program' -> Same program program' := by
  have hdisjoint : Layout.Disjoint (Layout.sites crossStatements) := by decide
  refine ⟨rfl, rfl, isBlock_crossBlocks, hdisjoint, ?_⟩
  apply (ofLines_flatten_perm crossBlocks.reverse_perm.symm isBlock_crossBlocks ?_).right
  intro sts hsts
  rw [Statement.reads_unique hsts reads_crossBlocks]
  exact hdisjoint

end Program
end Asm65
