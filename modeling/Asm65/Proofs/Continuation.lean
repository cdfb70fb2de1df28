import Asm65.Proofs.Blocks
import Asm65.Proofs.Failure
import Mathlib

/-!
# Programs that are continued

Lines that are put behind a program come too late to change where its statements stand and
what is known there.  So the labels stay, and so do the bytes wherever nothing new is
written.

A line that fails makes every longer program fail in the same way.  Of the failures at the
end, a label that is out of reach stays where it is; only a label that is nowhere defined
can still be defined by a later line.
-/

namespace Asm65

theorem Write.last?_append (ws vs : List Write) (a : Nat) :
    last? (ws ++ vs) a = (last? vs a).or (last? ws a) := by
  unfold last?
  rw [List.reverse_append, List.findSome?_append]

theorem Site.code_congr {q : Site} {table table' : String -> Option Nat}
    (h : forall kind l, q.statement.reference? = some (kind, l) ->
      table l.name = table' l.name) : q.code table = q.code table' := by
  cases hreference : q.statement.reference? with
  | none =>
      exact code_of_no_reference hreference table table'
  | some r =>
      rcases r with ⟨kind, l⟩
      rcases code_of_reference hreference with ⟨opcode, hcode⟩
      rw [hcode table, hcode table', Payload.bytes, Payload.bytes, h kind l hreference]

/-!
# Layouts
-/

namespace Layout

theorem sites_append (sts sts' : List Statement) :
    sites (sts ++ sts') = sites sts ++ sitesFrom (Cursor.start.run sts) sts' :=
  sitesFrom_append .start sts sts'

/-- A label stays where it is. -/
theorem table_append {sts sts' : List Statement} {name : String} {a : Nat}
    (hdistinct : (Cursor.start.run (sts ++ sts')).Distinct) (h : table sts name = some a) :
    table (sts ++ sts') name = some a := by
  have hrun : Cursor.start.run (sts ++ sts') = (Cursor.start.run sts).run sts' :=
    List.foldl_append
  unfold table
  rw [hrun] at hdistinct ⊢
  exact Cursor.table_run_of_table hdistinct h

theorem extent_le_append (qs rs : List Site) : extent qs ≤ extent (qs ++ rs) := by
  apply extent_le_iff.mpr
  intro q hq
  exact extent_le_iff.mp (Nat.le_refl _) q (List.mem_append_left rs hq)

/-- Later sites do not matter for an address that they do not cover. -/
theorem byteAt_append {qs rs : List Site} {a : Nat} (table : String -> Option Nat)
    (h : forall r, r ∈ rs -> ¬ r.Covers a) :
    byteAt (qs ++ rs) table a = byteAt qs table a := by
  unfold byteAt
  rw [List.filterMap_append, List.map_append, Write.last?_append, Write.last?_append,
    last?_patches_eq_none table h, last?_writes_eq_none table h, Option.none_or, Option.none_or]

theorem byteAt_congr {qs : List Site} {table table' : String -> Option Nat}
    (h : forall q, q ∈ qs -> q.code table = q.code table') (a : Nat) :
    byteAt qs table a = byteAt qs table' a := by
  have hpatches : qs.filterMap (Site.patch? table) = qs.filterMap (Site.patch? table') := by
    apply List.filterMap_congr
    intro q hq
    rw [Site.patch?, Site.patch?, h q hq]
  have hwrites : qs.map (Site.write table) = qs.map (Site.write table') := by
    apply List.map_congr_left
    intro q hq
    rw [Site.write, Site.write, h q hq]
  rw [byteAt, byteAt, hpatches, hwrites]

/-- Every reference finds its label already in the shorter program. -/
theorem code_table_append {sts sts' : List Statement} (hresolved : Resolved sts)
    (hdistinct : (Cursor.start.run (sts ++ sts')).Distinct) {q : Site} (hq : q ∈ sites sts) :
    q.code (table (sts ++ sts')) = q.code (table sts) := by
  apply Site.code_congr
  intro kind l hreference
  rcases hresolved q hq kind l hreference with ⟨target, htarget, _⟩
  rw [table_append hdistinct htarget, htarget]

end Layout

/-!
# Lines
-/

namespace Program

/-- What is left of a program in one that goes on with the sites `added`. -/
structure ContinuedBy (program program' : Program) (added : List Site) : Prop where
  labels : forall name a, program.symbols.address? name = some a ->
    program'.symbols.address? name = some a
  size : program.image.size ≤ program'.image.size
  bytes : forall a, a < program.image.size -> (forall q, q ∈ added -> ¬ q.Covers a) ->
    program'.image[a]? = program.image[a]?

theorem continuedBy_of_steps {sts sts' : List Statement} {s s' : State}
    {program program' : Program} (hsteps : State.start.steps sts = .ok s)
    (hfinish : s.finish = .ok program) (hsteps' : State.start.steps (sts ++ sts') = .ok s')
    (hfinish' : s'.finish = .ok program') :
    ContinuedBy program program' (Layout.sitesFrom (Cursor.start.run sts) sts') := by
  have hdistinct := Layout.distinct_of_admissible (State.admissible_of_steps hsteps')
  have hresolved := State.resolved_of_finish hsteps hfinish
  have hsize : program.image.size ≤ program'.image.size := by
    rw [State.size_of_finish hsteps hfinish, State.size_of_finish hsteps' hfinish',
      Layout.sites_append]
    exact Layout.extent_le_append _ _
  constructor
  · intro name a hname
    have htable : Layout.table sts name = some a.toNat := by
      rw [<- State.table_of_finish hsteps hfinish, Symbols.table, hname]
      rfl
    have htable' := Layout.table_append hdistinct htable
    rw [<- State.table_of_finish hsteps' hfinish'] at htable'
    rcases Option.map_eq_some_iff.mp htable' with ⟨b, hb, heq⟩
    rw [hb, UInt16.toNat_inj.mp heq]
  · exact hsize
  · intro a ha hmiss
    have hbyte : program'.image.byte a = program.image.byte a := by
      rw [State.byteAt_table_of_finish hsteps hfinish,
        State.byteAt_table_of_finish hsteps' hfinish', Layout.sites_append,
        Layout.byteAt_append _ hmiss]
      exact Layout.byteAt_congr (fun q => Layout.code_table_append hresolved hdistinct) a
    have ha' : a < program'.image.size := Nat.lt_of_lt_of_le ha hsize
    rw [Image.getElem?_eq_byte ha, Image.getElem?_eq_byte ha', hbyte]

/-- A scan that fails at a line does not get to the lines behind it. -/
theorem ofLines_append_of_lines_error {xs : List TokenLine} {e : StatementError}
    (h : State.start.lines xs = .error e) (ys : List TokenLine) :
    ofLines (xs ++ ys) = .error e := by
  have happend : State.start.lines (xs ++ ys) = .error e := by
    unfold State.lines at h ⊢
    rw [List.foldlM_append, h]
    rfl
  unfold ofLines
  rw [happend]
  rfl

end Program

/-!
# Failures at the end
-/

namespace Program

/-- A failure of the end is about a reference that waits. -/
theorem kind_of_late_failure {xs : List TokenLine} {e : StatementError}
    (h : ofLines xs = .error e) (hlines : State.start.lines xs ≠ .error e) :
    (exists name, e.kind = .unresolvedLabel name) ∨
      exists d, e.kind = .offsetOutOfRange d := by
  rcases ofLines_eq_error_iff.mp h with hline | ⟨sts, _, _, hlate⟩
  · exact absurd hline hlines
  · rcases List.exists_of_findSome?_eq_some hlate with ⟨q, _, hfault⟩
    rcases Site.lateFault?_eq_some hfault with ⟨kind, l, _, ⟨_, hkind⟩ | ⟨target, _, _, hkind⟩⟩
    · exact Or.inl ⟨l.name, hkind⟩
    · exact Or.inr ⟨_, hkind⟩

theorem unresolved_of_continued {xs ys : List TokenLine} {e : StatementError}
    {program : Program} (h : ofLines xs = .error e) (hmore : ofLines (xs ++ ys) = .ok program) :
    exists name, e.kind = .unresolvedLabel name := by
  rcases ofLines_eq_error_iff.mp h with hline | ⟨sts, hreads, _, hlate⟩
  · rw [ofLines_append_of_lines_error hline] at hmore
    cases hmore
  · rcases ofLines_eq_ok_iff.mp hmore with ⟨all, s, hall, hsteps, hfinish⟩
    rcases Statement.exists_reads_append hall with ⟨found, sts', rfl, hfound, _⟩
    rw [Statement.reads_unique hfound hreads] at hsteps
    have hdistinct := Layout.distinct_of_admissible (State.admissible_of_steps hsteps)
    have hresolved := State.resolved_of_finish hsteps hfinish
    rcases List.exists_of_findSome?_eq_some hlate with ⟨q, hq, hfault⟩
    rcases Site.lateFault?_eq_some hfault with ⟨kind, l, hdeferred, ⟨_, hkind⟩ | hfar⟩
    · exact ⟨l.name, hkind⟩
    · -- the label is still at the address that was out of reach
      rcases hfar with ⟨target, htarget, hfar, _⟩
      have hmem : q ∈ Layout.sites (sts ++ sts') := by
        rw [Layout.sites_append]
        exact List.mem_append_left _ hq
      rcases hresolved q hmem kind l (Site.deferred?_eq_some_iff.mp hdeferred).left with
        ⟨found, hfound, hreach⟩
      rw [Layout.table_append hdistinct htarget] at hfound
      cases hfound
      exact absurd hreach hfar

/-!
# A label that comes later
-/

/-- A jump through the word at a label, which may have any name. -/
def jumpThrough (name : String) : TokenLine :=
  ⟨1, [.mnemonic .jmp, .lparen, .label name, .rparen]⟩

def definitionOf (name : String) : TokenLine :=
  ⟨2, [.label name, .colon]⟩

theorem ofLines_jumpThrough (name : String) :
    ofLines [jumpThrough name] = .error ⟨.unresolvedLabel name, 1, 3⟩ := rfl

theorem ofLines_jumpThrough_definitionOf (name : String) :
    ofLines [jumpThrough name, definitionOf name] =
      .ok ⟨#[0x6C, 3, 0], ⟨[(name, 3)], #[]⟩⟩ := by
  have hlines : State.start.lines [jumpThrough name, definitionOf name] =
      .ok ⟨3, false, #[0x6C, 0, 0], ⟨[(name, 3)], #[⟨⟨name, 3⟩, 1, 1, .absolute⟩]⟩⟩ := by cbv
  have hlookup : [(name, (3 : UInt16))].lookup name = some 3 := List.lookup_cons_self
  unfold ofLines
  rw [hlines]
  simp only [bind, Except.bind, State.finish, List.foldlM_cons, Fixup.patch, Symbols.address?,
    hlookup]
  rfl

/-- The failures that lines at the end can mend are those of labels that are not defined. -/
theorem exists_continued_iff (kind : StatementError.Kind) :
    (exists ls more line token program,
        ofLines ls = .error ⟨kind, line, token⟩ ∧ ofLines (ls ++ more) = .ok program) <->
      exists name, kind = .unresolvedLabel name := by
  constructor
  · intro h
    rcases h with ⟨ls, more, line, token, program, hfail, hmore⟩
    exact unresolved_of_continued hfail hmore
  · intro h
    rcases h with ⟨name, rfl⟩
    exact ⟨[jumpThrough name], [definitionOf name], 1, 3, _, ofLines_jumpThrough name,
      ofLines_jumpThrough_definitionOf name⟩

theorem ofLines_append_keeps_program_and_failure (xs ys : List TokenLine) :
    (forall program program', ofLines xs = .ok program -> ofLines (xs ++ ys) = .ok program' ->
      exists sts sts', Statement.Reads xs sts ∧ Statement.Reads ys sts' ∧
        ContinuedBy program program' (Layout.sitesFrom (Cursor.start.run sts) sts')) ∧
    (forall e, ofLines xs = .error e -> (forall name, e.kind ≠ .unresolvedLabel name) ->
      (forall d, e.kind ≠ .offsetOutOfRange d) -> ofLines (xs ++ ys) = .error e) ∧
    (forall e d, ofLines xs = .error e -> e.kind = .offsetOutOfRange d ->
      exists e', ofLines (xs ++ ys) = .error e') ∧
    (forall kind, (exists ls more line token program,
        ofLines ls = .error ⟨kind, line, token⟩ ∧ ofLines (ls ++ more) = .ok program) <->
      exists name, kind = .unresolvedLabel name) := by
  refine ⟨?_, ?_, ?_, exists_continued_iff⟩
  · intro program program' h h'
    rcases ofLines_eq_ok_iff.mp h with ⟨sts, s, hreads, hsteps, hfinish⟩
    rcases ofLines_eq_ok_iff.mp h' with ⟨all, s', hall, hsteps', hfinish'⟩
    rcases Statement.exists_reads_append hall with ⟨found, sts', rfl, hfound, hreads'⟩
    rw [Statement.reads_unique hfound hreads] at hsteps'
    exact ⟨sts, sts', hreads, hreads', continuedBy_of_steps hsteps hfinish hsteps' hfinish'⟩
  · intro e h hunresolved hrange
    by_cases hlines : State.start.lines xs = .error e
    · exact ofLines_append_of_lines_error hlines ys
    · rcases kind_of_late_failure h hlines with ⟨name, hname⟩ | ⟨d, hd⟩
      · exact absurd hname (hunresolved name)
      · exact absurd hd (hrange d)
  · intro e d h hkind
    cases hmore : ofLines (xs ++ ys) with
    | error e' =>
        exact ⟨e', rfl⟩
    | ok program =>
        rcases unresolved_of_continued h hmore with ⟨name, hname⟩
        rw [hkind] at hname
        cases hname

/-- A jump to the line behind it. -/
def jumpToEnd : List TokenLine :=
  [⟨1, [.mnemonic .jmp, .label "END"]⟩, ⟨2, [.label "END", .colon, .mnemonic .nop]⟩]

/-- A branch to a label that is out of reach. -/
def branchTooFar : List TokenLine :=
  [⟨1, [.mnemonic .bne, .label "FAR"]⟩, ⟨2, [.directive "ORG", .number 130]⟩,
    ⟨3, [.label "FAR", .colon]⟩]

/-- Lines that write over the byte at address `0` and go on behind address `3`. -/
def newStart : List TokenLine :=
  [⟨4, [.directive "ORG", .number 0]⟩, ⟨5, [.directive "BYTE", .number 7]⟩,
    ⟨6, [.directive "ORG", .number 4]⟩, ⟨7, [.mnemonic .jmp, .label "END"]⟩]

/--
Behind the jump, the new lines change the opcode of the jump only.  They mend neither the
jump that is there twice nor the branch.
-/
theorem newStart_behind_jump_and_branch :
    ofLines jumpToEnd = .ok ⟨#[0x4C, 3, 0, 0xEA], ⟨[("END", 3)], #[]⟩⟩ ∧
      ofLines (jumpToEnd ++ newStart) =
        .ok ⟨#[7, 3, 0, 0xEA, 0x4C, 3, 0], ⟨[("END", 3)], #[]⟩⟩ ∧
      (exists sts sts', Statement.Reads jumpToEnd sts ∧ Statement.Reads newStart sts' ∧
        ContinuedBy ⟨#[0x4C, 3, 0, 0xEA], ⟨[("END", 3)], #[]⟩⟩
          ⟨#[7, 3, 0, 0xEA, 0x4C, 3, 0], ⟨[("END", 3)], #[]⟩⟩
          (Layout.sitesFrom (Cursor.start.run sts) sts')) ∧
      ofLines (jumpToEnd ++ jumpToEnd) = .error ⟨.duplicateLabel "END", 2, 1⟩ ∧
      ofLines ((jumpToEnd ++ jumpToEnd) ++ newStart) = .error ⟨.duplicateLabel "END", 2, 1⟩ ∧
      ofLines branchTooFar = .error ⟨.offsetOutOfRange 128, 1, 2⟩ ∧
      exists e, ofLines (branchTooFar ++ newStart) = .error e := by
  have hjump : ofLines jumpToEnd = .ok ⟨#[0x4C, 3, 0, 0xEA], ⟨[("END", 3)], #[]⟩⟩ := rfl
  have hmore : ofLines (jumpToEnd ++ newStart) =
      .ok ⟨#[7, 3, 0, 0xEA, 0x4C, 3, 0], ⟨[("END", 3)], #[]⟩⟩ := by cbv
  have htwice : ofLines (jumpToEnd ++ jumpToEnd) =
      .error ⟨.duplicateLabel "END", 2, 1⟩ := rfl
  have hfar : ofLines branchTooFar = .error ⟨.offsetOutOfRange 128, 1, 2⟩ := rfl
  refine ⟨hjump, hmore, ?_, htwice, ?_, hfar, ?_⟩
  · exact (ofLines_append_keeps_program_and_failure _ _).left _ _ hjump hmore
  · apply (ofLines_append_keeps_program_and_failure _ _).right.left _ htwice
    · intro name hname
      cases hname
    · intro d hd
      cases hd
  · exact (ofLines_append_keeps_program_and_failure _ _).right.right.left _ _ hfar rfl

end Program
end Asm65
