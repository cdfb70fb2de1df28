import Asm65.Proofs.Blocks
import Asm65.Proofs.Sorting
import Mathlib.Data.Prod.Lex
import Mathlib.Data.String.Basic

/-!
# The labels of a program

The final labels are the definitions of the lines, each with the address that the lines before
it lead to.  They are listed by address, and by name at one address.  No two labels have the
same name, so this order leaves nothing open: whatever order the labels were defined in, there
is one listing of them.
-/

namespace Asm65

/-!
# Listings
-/

namespace Symbols

/-- One label is listed before another: it has the lower address, or at the same the lower name. -/
def Before (p q : String × UInt16) : Prop :=
  p.2 < q.2 ∨ p.2 = q.2 ∧ p.1 < q.1

instance (p q : String × UInt16) : Decidable (Before p q) :=
  inferInstanceAs (Decidable (_ ∨ _))

/-- What a label is listed by. -/
def key (p : String × UInt16) : Nat ×ₗ String :=
  toLex (p.2.toNat, p.1)

theorem before_iff {p q : String × UInt16} : Before p q <-> key p < key q := by
  rw [Prod.Lex.lt_iff, Before, UInt16.lt_iff_toNat_lt, <- UInt16.toNat_inj]
  rfl

theorem precedes_iff {p q : String × UInt16} : precedes p q = true <-> key p ≤ key q := by
  rw [Prod.Lex.le_iff, precedes, Bool.or_eq_true, Bool.and_eq_true, beq_iff_eq,
    <- UInt16.toNat_inj]
  simp only [decide_eq_true_eq, UInt16.lt_iff_toNat_lt]
  rfl

theorem key_injective : Function.Injective key := by
  intro p q h
  have hpair := toLex.injective h
  rw [Prod.mk.injEq, UInt16.toNat_inj] at hpair
  exact Prod.ext hpair.right hpair.left

theorem eq_of_mem_iff {es es' : List (String × UInt16)} (h : es.Pairwise Before)
    (h' : es'.Pairwise Before) (hmem : forall e, e ∈ es <-> e ∈ es') : es = es' :=
  eq_of_rising (h.imp before_iff.mp) (h'.imp before_iff.mp) hmem

theorem listing_perm (t : Symbols) : t.listing.Perm t.labels :=
  List.mergeSort_perm t.labels precedes

theorem pairwise_precedes_listing (t : Symbols) :
    t.listing.Pairwise fun p q => precedes p q = true := by
  apply List.pairwise_mergeSort
  · intro p q r hpq hqr
    exact precedes_iff.mpr ((precedes_iff.mp hpq).trans (precedes_iff.mp hqr))
  · intro p q
    rw [Bool.or_eq_true, precedes_iff, precedes_iff]
    exact le_total (key p) (key q)

/-- Labels of different names are never listed at the same place. -/
theorem pairwise_before_listing {t : Symbols} (h : (t.labels.map Prod.fst).Nodup) :
    t.listing.Pairwise Before := by
  have hnodup : t.listing.Nodup := (t.listing_perm.nodup_iff).mpr h.of_map
  apply (pairwise_precedes_listing t).imp₂ _ hnodup
  intro p q hprecedes hne
  rw [before_iff]
  exact lt_of_le_of_ne (precedes_iff.mp hprecedes) (key_injective.ne hne)

end Symbols

/-!
# Definitions
-/

namespace Layout

/-- The address that statements lead to from zero, by their sizes and their origins. -/
def addressBehind (sts : List Statement) : Nat :=
  sts.foldl (fun p st => st.after p) 0

theorem address_run (c : Cursor) (sts : List Statement) :
    (c.run sts).address = sts.foldl (fun p st => st.after p) c.address := by
  induction sts generalizing c with
  | nil => rfl
  | cons st sts ih => exact ih (c.next st)

theorem mem_sitesFrom_iff {c : Cursor} {sts : List Statement} {q : Site} :
    q ∈ sitesFrom c sts <->
      exists before after, sts = before ++ q.statement :: after ∧ q.cursor = c.run before := by
  constructor
  · intro h
    induction sts generalizing c with
    | nil => cases h
    | cons st sts ih =>
        rcases List.mem_cons.mp h with rfl | hrest
        · exact ⟨[], sts, rfl, rfl⟩
        · rcases ih hrest with ⟨before, after, heq, hcursor⟩
          exact ⟨st :: before, after, by rw [heq, List.cons_append], hcursor⟩
  · intro h
    rcases h with ⟨before, after, rfl, hcursor⟩
    rw [sitesFrom_append, sitesFrom, <- hcursor]
    exact List.mem_append_right _ List.mem_cons_self

end Layout

theorem Statement.Reads.exists_line_of_split {ls : List TokenLine} {sts sts' : List Statement}
    {st : Statement} (h : Reads ls (sts ++ st :: sts')) :
    exists before l after, ls = before ++ l :: after ∧ Reads before sts ∧
      Statement.ofLine l = .ok st := by
  have hbefore := List.forall₂_take_append ls sts (st :: sts') h
  have hothers := List.forall₂_drop_append ls sts (st :: sts') h
  rcases List.forall₂_cons_right_iff.mp hothers with ⟨l, after, hl, _, hdrop⟩
  refine ⟨ls.take sts.length, l, after, ?_, hbefore, hl⟩
  rw [<- hdrop, List.take_append_drop]

namespace TokenLine

/-- A line defines the label, and the lines before it lead to the address. -/
def Defines (ls : List TokenLine) (name : String) (a : Nat) : Prop :=
  exists before l after sts st label, ls = before ++ l :: after ∧
    Statement.Reads before sts ∧ Statement.ofLine l = .ok st ∧
    st.label? = some label ∧ label.name = name ∧ Layout.addressBehind sts = a

/-- The definitions in lines are those at the sites of the statements that they read as. -/
theorem defines_iff {ls : List TokenLine} {sts : List Statement} (h : Statement.Reads ls sts)
    {name : String} {a : Nat} :
    Defines ls name a <->
      exists q, q ∈ Layout.sites sts ∧
        exists l, q.statement.label? = some l ∧ l.name = name ∧ q.start = a := by
  constructor
  · intro hdefines
    rcases hdefines with ⟨before, l, after, sts₁, st, label, rfl, hbefore, hl, hlabel, hname, ha⟩
    -- lines read in one way only, so the statements before the definition are those of the program
    rcases Statement.exists_reads_append h with ⟨sts₁', sts₂, rfl, hbefore', hothers⟩
    cases Statement.reads_unique hbefore hbefore'
    rcases List.forall₂_cons_left_iff.mp hothers with ⟨st', sts₃, hst', _, rfl⟩
    rw [hl] at hst'
    cases hst'
    refine ⟨⟨Cursor.start.run sts₁, st⟩, ?_, label, hlabel, hname, ?_⟩
    · exact Layout.mem_sitesFrom_iff.mpr ⟨sts₁, sts₃, rfl, rfl⟩
    · exact (Layout.address_run .start sts₁).trans ha
  · intro hsite
    rcases hsite with ⟨q, hq, label, hlabel, hname, ha⟩
    rcases Layout.mem_sitesFrom_iff.mp hq with ⟨sts₁, sts₂, rfl, hcursor⟩
    rcases h.exists_line_of_split with ⟨before, l, after, rfl, hbefore, hl⟩
    refine ⟨before, l, after, sts₁, q.statement, label, rfl, hbefore, hl, hlabel, hname, ?_⟩
    rw [Site.start, hcursor, Layout.address_run] at ha
    exact ha

/-- All definitions in the lines, in the order of their addresses and names. -/
structure IsListing (ls : List TokenLine) (entries : List (String × UInt16)) : Prop where
  sorted : entries.Pairwise Symbols.Before
  complete : forall name a, (name, a) ∈ entries <-> Defines ls name a.toNat

theorem IsListing.unique {ls : List TokenLine} {entries entries' : List (String × UInt16)}
    (h : IsListing ls entries) (h' : IsListing ls entries') : entries = entries' := by
  apply Symbols.eq_of_mem_iff h.sorted h'.sorted
  intro e
  rw [h.complete, h'.complete]

end TokenLine

/-!
# Programs
-/

/-- The counter is where the lines so far lead to. -/
theorem State.counter_of_lines {before : List TokenLine} {s : State}
    (h : start.lines before = .ok s) :
    exists sts, Statement.Reads before sts ∧ s.counter = Layout.addressBehind sts := by
  rcases lines_eq_ok_iff.mp h with ⟨sts, hreads, hsteps⟩
  refine ⟨sts, hreads, ?_⟩
  have hcursor : s.cursor = Cursor.start.run sts := (follows_of_steps hsteps).cursor
  calc s.counter = s.cursor.address := rfl
    _ = (Cursor.start.run sts).address := by rw [hcursor]
    _ = Layout.addressBehind sts := Layout.address_run .start sts

namespace Program

section Labels

variable {ls : List TokenLine} {program : Program}

theorem exists_lines_of_ofLines {before after : List TokenLine}
    (h : ofLines (before ++ after) = .ok program) : exists s, State.start.lines before = .ok s := by
  rcases bind_eq_ok_iff.mp h with ⟨t, ht, _⟩
  rw [State.lines, List.foldlM_append] at ht
  rcases bind_eq_ok_iff.mp ht with ⟨s, hs, _⟩
  exact ⟨s, hs⟩

theorem names_nodup (h : ofLines ls = .ok program) :
    (program.symbols.labels.map Prod.fst).Nodup := by
  rcases ofLines_eq_ok_iff.mp h with ⟨sts, s, _, hsteps, hfinish⟩
  have hdistinct := Layout.distinct_of_admissible (State.admissible_of_steps hsteps)
  rw [Cursor.Distinct, <- State.labels_of_finish hsteps hfinish, List.map_map] at hdistinct
  exact hdistinct

theorem mem_labels_iff (h : ofLines ls = .ok program) {name : String} {a : UInt16} :
    (name, a) ∈ program.symbols.labels <-> TokenLine.Defines ls name a.toNat := by
  rcases ofLines_eq_ok_iff.mp h with ⟨sts, s, hreads, hsteps, hfinish⟩
  have hdistinct := Layout.distinct_of_admissible (State.admissible_of_steps hsteps)
  rw [TokenLine.defines_iff hreads, <- Layout.table_run_eq_some_iff hdistinct,
    Cursor.table_eq_some_iff hdistinct, <- State.labels_of_finish hsteps hfinish,
    <- List.mem_map_of_injective toNat_entry_injective]

theorem address?_eq_some_iff (h : ofLines ls = .ok program) {name : String} {a : UInt16} :
    program.symbols.address? name = some a <-> TokenLine.Defines ls name a.toNat := by
  rcases ofLines_eq_ok_iff.mp h with ⟨sts, s, hreads, hsteps, hfinish⟩
  have hdistinct := Layout.distinct_of_admissible (State.admissible_of_steps hsteps)
  have htable : program.symbols.table name = (Cursor.start.run sts).table name :=
    congrFun (State.table_of_finish hsteps hfinish) name
  rw [TokenLine.defines_iff hreads, <- Layout.table_run_eq_some_iff hdistinct, <- htable,
    Symbols.table, Option.map_eq_some_iff]
  simp only [UInt16.toNat_inj, exists_eq_right]

theorem isListing_listing (h : ofLines ls = .ok program) :
    TokenLine.IsListing ls program.symbols.listing := by
  constructor
  · exact Symbols.pairwise_before_listing (names_nodup h)
  · intro name a
    rw [program.symbols.listing_perm.mem_iff, mem_labels_iff h]

end Labels

/--
The labels of a program are the definitions in its lines, each with the counter before its own
statement is taken up.  They are listed in strict order, without loss or repetition, and
programs with the same definitions have the same listing.
-/
theorem labels_are_definitions {ls : List TokenLine} {program : Program}
    (h : ofLines ls = .ok program) :
    (forall name a, program.symbols.address? name = some a <->
      TokenLine.Defines ls name a.toNat) ∧
    (forall before after, ls = before ++ after ->
      exists s sts, State.start.lines before = .ok s ∧ Statement.Reads before sts ∧
        s.counter = Layout.addressBehind sts) ∧
    (program.symbols.listing.map Prod.fst).Nodup ∧
    (forall entries, TokenLine.IsListing ls entries <-> entries = program.symbols.listing) ∧
    forall ls' program', ofLines ls' = .ok program' ->
      (forall name a, TokenLine.Defines ls' name a <-> TokenLine.Defines ls name a) ->
        program'.symbols.listing = program.symbols.listing := by
  have hlisting := isListing_listing h
  refine ⟨fun name a => address?_eq_some_iff h, ?_, ?_, ?_, ?_⟩
  · intro before after hsplit
    rw [hsplit] at h
    rcases exists_lines_of_ofLines h with ⟨s, hs⟩
    rcases State.counter_of_lines hs with ⟨sts, hreads, hcounter⟩
    exact ⟨s, sts, hs, hreads, hcounter⟩
  · exact (program.symbols.listing_perm.map Prod.fst).nodup_iff.mpr (names_nodup h)
  · intro entries
    constructor
    · exact fun hentries => hentries.unique hlisting
    · intro hentries
      rw [hentries]
      exact hlisting
  · intro ls' program' h' hsame
    have hlisting' := isListing_listing h'
    apply Symbols.eq_of_mem_iff hlisting'.sorted hlisting.sorted
    intro e
    rw [hlisting'.complete, hlisting.complete, hsame]

/-- Labels on lines that move the counter forward and back, and two at the same address. -/
def movedLabels : List TokenLine :=
  [⟨1, [.label "FIRST", .colon, .directive "ORG", .number 3]⟩,
    ⟨2, [.label "TWO", .colon]⟩,
    ⟨3, [.label "ONE", .colon, .mnemonic .nop]⟩,
    ⟨4, [.label "LAST", .colon, .directive "ORG", .number 0]⟩]

theorem movedLabels_listed :
    ofLines movedLabels = .ok ⟨#[0, 0, 0, 0xEA],
        ⟨[("LAST", 4), ("ONE", 3), ("TWO", 3), ("FIRST", 0)], #[]⟩⟩ ∧
      TokenLine.Defines movedLabels "FIRST" 0 ∧ TokenLine.Defines movedLabels "LAST" 4 ∧
      TokenLine.IsListing movedLabels [("FIRST", 0), ("ONE", 3), ("TWO", 3), ("LAST", 4)] := by
  have hprogram : ofLines movedLabels = .ok ⟨#[0, 0, 0, 0xEA],
      ⟨[("LAST", 4), ("ONE", 3), ("TWO", 3), ("FIRST", 0)], #[]⟩⟩ := by
    decide +kernel
  rcases labels_are_definitions hprogram with ⟨haddress, _, _, hlisting, _⟩
  refine ⟨hprogram, (haddress "FIRST" 0).mp rfl, (haddress "LAST" 4).mp rfl, ?_⟩
  rw [hlisting]
  apply Symbols.eq_of_mem_iff
  · decide
  · exact Symbols.pairwise_before_listing (by decide)
  · intro e
    rw [(Symbols.listing_perm _).mem_iff]
    exact List.Perm.mem_iff (by decide)

end Program
end Asm65
