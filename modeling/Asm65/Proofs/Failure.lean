import Asm65.Proofs.Acceptance
import Asm65.Proofs.Fault
import Asm65.Proofs.Parsing
import Asm65.Source

/-!
# Which failure is reported

A source is scanned as a whole, then its lines are taken up one by one, and the references
that wait are resolved last.  So a line that cannot be scanned is reported before any line
that cannot be read or placed, and those before a reference that comes to nothing; among the
failures of one kind, the first in the order of the source is reported.
-/

namespace Asm65

/-!
# References that wait
-/

/-- The fault of a reference at `start` that is resolved against the labels of the program. -/
def RefKind.lateFault? (table : String -> Option Nat) (l : LabelRef) (start line : Nat)
    (kind : RefKind) : Option StatementError :=
  match table l.name with
  | none => some ⟨.unresolvedLabel l.name, line, l.token⟩
  | some target =>
      (kind.outOfReach? target start).map fun fault => ⟨fault, line, l.token⟩

/-- The fault of a reference to a label that is only defined on a later line, or nowhere. -/
def Site.lateFault? (table : String -> Option Nat) (q : Site) : Option StatementError := do
  let (kind, l) ← q.deferred?
  kind.lateFault? table l q.start q.statement.line

namespace Fixup

def fault? (table : String -> Option Nat) (f : Fixup) : Option StatementError :=
  f.kind.lateFault? table f.label (f.offset - 1).toNat f.line

theorem failsBy_patch (t : Symbols) (image : Image) (f : Fixup) :
    FailsBy (f.patch t image) (f.fault? t.table) := by
  unfold patch fault? RefKind.lateFault? Symbols.table
  cases t.address? f.label.name with
  | none =>
      exact FailsBy.error _
  | some target =>
      exact ((f.kind.failsBy_encode target (f.offset - 1)).located _ _).map _

theorem failsBy_patchAll (t : Symbols) (image : Image) (fs : List Fixup) :
    FailsBy (patchAll t image fs) (fs.findSome? (fault? t.table)) := by
  induction fs generalizing image with
  | nil =>
      exact FailsBy.ok image
  | cons f fs ih =>
      have hfirst : (f :: fs).findSome? (fault? t.table) =
          (f.fault? t.table).or (fs.findSome? (fault? t.table)) := by
        rw [List.findSome?_cons]
        cases f.fault? t.table <;> rfl
      rw [hfirst]
      apply (failsBy_patch t image f).bind
      intro image' _
      exact ih image'

end Fixup

theorem Site.Admissible.lateFault?_eq {q : Site} (hq : q.Admissible)
    (table : String -> Option Nat) :
    q.lateFault? table = q.fixup?.bind (Fixup.fault? table) := by
  cases hfixup : q.fixup? with
  | none =>
      rw [fixup?, Option.map_eq_none_iff] at hfixup
      rw [lateFault?, hfixup]
      rfl
  | some f =>
      have horigin := hq.origin_of_fixup hfixup
      rcases fixup?_eq_some_iff.mp hfixup with ⟨kind, l, hdeferred, rfl⟩
      rw [lateFault?, hdeferred, Option.bind_some, Fixup.fault?, horigin]
      rfl

theorem Site.lateFault?_eq_some {table : String -> Option Nat} {q : Site} {e : StatementError}
    (h : q.lateFault? table = some e) :
    exists kind l, q.deferred? = some (kind, l) ∧
      ((table l.name = none ∧ e.kind = .unresolvedLabel l.name) ∨
        exists target, table l.name = some target ∧ ¬ kind.Reaches target q.start ∧
          e.kind = .offsetOutOfRange (RefKind.distance target q.start)) := by
  rcases Option.bind_eq_some_iff.mp h with ⟨⟨kind, l⟩, hdeferred, hfault⟩
  refine ⟨kind, l, hdeferred, ?_⟩
  unfold RefKind.lateFault? at hfault
  cases htable : table l.name with
  | none =>
      simp only [htable, Option.some.injEq] at hfault
      rw [<- hfault]
      exact Or.inl ⟨rfl, rfl⟩
  | some target =>
      simp only [htable] at hfault
      rcases RefKind.eq_of_outOfReach hfault with ⟨hfar, rfl⟩
      exact Or.inr ⟨target, rfl, hfar, rfl⟩

/-- The queue fails as the first of the sites that wait. -/
theorem Layout.findSome?_fixups {qs : List Site} (h : forall q, q ∈ qs -> q.Admissible)
    (table : String -> Option Nat) :
    (qs.filterMap Site.fixup?).findSome? (Fixup.fault? table) =
      qs.findSome? (Site.lateFault? table) := by
  induction qs with
  | nil =>
      rfl
  | cons q qs ih =>
      rw [List.forall_mem_cons] at h
      rw [List.filterMap_cons, List.findSome?_cons, h.left.lateFault?_eq, <- ih h.right]
      cases q.fixup? with
      | none => rfl
      | some f => rw [List.findSome?_cons, Option.bind_some]

theorem State.failsBy_finish {s : State} {sts : List Statement}
    (h : start.steps sts = .ok s) :
    FailsBy s.finish ((Layout.sites sts).findSome? (Site.lateFault? (Layout.table sts))) := by
  have hsymbols := symbols_of_steps h
  have hpatches := Fixup.failsBy_patchAll s.symbols s.image s.symbols.pending.toList
  rw [hsymbols.left, hsymbols.right,
    Layout.findSome?_fixups (admissible_of_steps h), <- hsymbols.right] at hpatches
  have hfinish := hpatches.bind fun image _ =>
    FailsBy.ok (Program.mk image { s.symbols with pending := #[] })
  rw [Option.or_none] at hfinish
  exact hfinish

/-!
# Lines
-/

namespace Layout

/-- No statement fails at its site.  References that wait are not looked at. -/
def Sound (sts : List Statement) : Prop :=
  forall q, q ∈ sites sts -> q.fault? = none

theorem sound_iff_exists_steps {sts : List Statement} :
    Sound sts <-> exists s, State.start.steps sts = .ok s := by
  rw [State.exists_steps_iff]
  apply forall_congr'
  intro q
  rw [Site.fault?_eq_none_iff]
  rfl

end Layout

/-- What stops a line when the lines before it have led to `c`: it cannot be read, or not placed. -/
inductive TokenLine.Fails (c : Cursor) (l : TokenLine) : StatementError -> Prop where
  | unreadable {e : StatementError} : Statement.ofLine l = .error e -> Fails c l e
  | misplaced {st : Statement} {e : StatementError} :
      Statement.ofLine l = .ok st -> Site.fault? ⟨c, st⟩ = some e -> Fails c l e

namespace State

theorem line_eq_error_iff {s : State} {l : TokenLine} {e : StatementError} :
    s.line l = .error e <-> l.Fails s.cursor e := by
  unfold line
  rw [bind_eq_error_iff]
  constructor
  · intro h
    rcases h with hread | ⟨st, hst, hstep⟩
    · exact .unreadable hread
    · exact .misplaced hst ((failsBy_step s st e).mp hstep)
  · intro h
    cases h with
    | unreadable hread => exact Or.inl hread
    | misplaced hst hfault => exact Or.inr ⟨_, hst, (failsBy_step s _ e).mpr hfault⟩

/-- A scan fails at the first line that fails. -/
theorem lines_eq_error_iff {ls : List TokenLine} {e : StatementError} :
    start.lines ls = .error e <->
      exists before l after sts, ls = before ++ l :: after ∧ Statement.Reads before sts ∧
        Layout.Sound sts ∧ l.Fails (Cursor.start.run sts) e := by
  unfold lines
  rw [foldlM_eq_error_iff]
  constructor
  · intro h
    rcases h with ⟨before, l, after, s, heq, hbefore, hline⟩
    rcases lines_eq_ok_iff.mp hbefore with ⟨sts, hreads, hsteps⟩
    have hcursor : s.cursor = Cursor.start.run sts := (follows_of_steps hsteps).cursor
    rw [line_eq_error_iff, hcursor] at hline
    exact ⟨before, l, after, sts, heq, hreads,
      Layout.sound_iff_exists_steps.mpr ⟨s, hsteps⟩, hline⟩
  · intro h
    rcases h with ⟨before, l, after, sts, heq, hreads, hsound, hline⟩
    rcases Layout.sound_iff_exists_steps.mp hsound with ⟨s, hsteps⟩
    have hcursor : s.cursor = Cursor.start.run sts := (follows_of_steps hsteps).cursor
    rw [<- hcursor, <- line_eq_error_iff] at hline
    exact ⟨before, l, after, s, heq, lines_eq_ok_iff.mpr ⟨sts, hreads, hsteps⟩, hline⟩

end State

/-!
# Kinds of failures

A line is read by itself, so no failure of reading is about labels or memory.  A statement is
placed with regard to the lines before it.  That a label is nowhere defined is neither.
-/

/-- The failures that the tokens of a line can show. -/
def StatementError.Kind.OfReading : StatementError.Kind -> Prop
  | .unexpectedToken _ _ | .expected _ _ | .labelNotAtLineStart _ => True
  | .modeUndefined _ _ | .byteExpected _ => True
  | .duplicateLabel _ | .offsetOutOfRange _ | .unresolvedLabel _ | .pcOverflow => False

/-- The failures that the place of a statement can show. -/
def StatementError.Kind.OfPlacing : StatementError.Kind -> Prop
  | .duplicateLabel _ | .offsetOutOfRange _ | .pcOverflow => True
  | .unexpectedToken _ _ | .expected _ _ | .labelNotAtLineStart _ => False
  | .modeUndefined _ _ | .byteExpected _ | .unresolvedLabel _ => False

theorem Site.ofPlacing_of_fault {q : Site} {e : StatementError} (h : q.fault? = some e) :
    e.kind.OfPlacing := by
  simp only [fault?, labelFault?, nucleusFault?, Option.or_eq_some_iff] at h
  rcases h with (hlabel | ⟨_, hduplicate⟩) | ⟨_, (hopcode | ⟨_, hreach⟩) | ⟨_, hbytes⟩⟩
  · rcases Option.bind_eq_some_iff.mp hlabel with ⟨l, _, hstop⟩
    rw [eq_of_pastEnd hstop]
    trivial
  · rcases Option.bind_eq_some_iff.mp hduplicate with ⟨l, _, htaken⟩
    rcases Option.map_eq_some_iff.mp htaken with ⟨a, _, rfl⟩
    trivial
  · unfold opcodeOverflow? at hopcode
    split at hopcode
    · rw [eq_of_pastEnd hopcode]
      trivial
    · cases hopcode
  · rcases Option.bind_eq_some_iff.mp hreach with ⟨r, _, hrest⟩
    rcases Option.bind_eq_some_iff.mp hrest with ⟨target, _, hfar⟩
    rw [(RefKind.eq_of_outOfReach hfar).right]
    trivial
  · rw [eq_of_pastEnd hbytes]
    trivial

/-- If a reader fails, then by a failure of reading. -/
def FailsReading {α : Type} (x : Except Fault α) : Prop :=
  forall f, x = .error f -> f.kind.OfReading

namespace FailsReading

variable {α β : Type}

theorem ok (a : α) : FailsReading (.ok a) := by
  intro f h
  cases h

theorem error {f : Fault} (h : f.kind.OfReading) : FailsReading (.error f : Except Fault α) := by
  intro f' heq
  cases heq
  exact h

theorem bind {x : Except Fault α} {g : α -> Except Fault β} (hx : FailsReading x)
    (hg : forall a, FailsReading (g a)) : FailsReading (x >>= g) := by
  intro f h
  rcases bind_eq_error_iff.mp h with hfirst | ⟨a, _, hrest⟩
  · exact hx f hfirst
  · exact hg a f hrest

theorem map {x : Except Fault α} (hx : FailsReading x) (g : α -> β) :
    FailsReading (x.map g) := by
  intro f h
  exact hx f (map_eq_error_iff.mp h)

end FailsReading

namespace Rest

theorem ofReading_unexpected (r : Rest) : r.unexpected.kind.OfReading := by
  unfold unexpected
  split <;> trivial

theorem failsReading_expect (t : Token) (wanted : String) (r : Rest) :
    FailsReading (r.expect t wanted) := by
  unfold expect
  split
  · split
    · exact .ok _
    · exact .error trivial
  · exact .error trivial

theorem failsReading_expectEnd (r : Rest) : FailsReading r.expectEnd := by
  unfold expectEnd
  split
  · exact .ok _
  · exact .error trivial

theorem failsReading_byteAt (k : Nat) (n : UInt16) : FailsReading (byteAt k n) := by
  unfold byteAt
  split
  · exact .ok _
  · exact .error trivial

theorem failsReading_valuesFrom {α : Type} {item : Nat -> UInt16 -> Except Fault α}
    (hitem : forall k n, FailsReading (item k n)) (k : Nat) (ts : List Token) :
    FailsReading (valuesFrom item k ts) := by
  fun_induction valuesFrom item k ts with
  | case1 k n ts ih => exact (hitem k n).bind fun _ => ih.bind fun _ => .ok _
  | case2 k n ts _ => exact (hitem k n).bind fun _ => .ok _
  | case3 k ts _ _ => exact .error trivial

theorem failsReading_number (r : Rest) : FailsReading r.number := by
  unfold number
  split
  · exact .ok _
  · exact .error trivial

theorem failsReading_directive (name : String) (k : Nat) (r : Rest) :
    FailsReading (directive name k r) := by
  have hwords : FailsReading (r.values wordAt) :=
    failsReading_valuesFrom (fun _ n => .ok n) r.next r.tokens
  have hbytes : FailsReading (r.values byteAt) :=
    failsReading_valuesFrom failsReading_byteAt r.next r.tokens
  unfold directive
  split
  · exact hwords.map _
  · split
    · exact hbytes.map _
    · split
      · exact hwords.map _
      · split
        · exact r.failsReading_number.map _
        · exact .error trivial

theorem failsReading_indexed (n : UInt16) (r : Rest) : FailsReading (indexed n r) := by
  unfold indexed
  split
  · split
    · exact .ok _
    · split
      · exact .ok _
      · exact .error r.ofReading_unexpected
  · exact .error r.ofReading_unexpected

theorem failsReading_indirect (n : UInt16) (r : Rest) : FailsReading (indirect n r) := by
  unfold indirect expectRegister expectMark
  split
  · split
    · exact (failsReading_expect _ _ _).bind fun _ =>
        (failsReading_expect _ _ _).bind fun _ => .ok _
    · exact (failsReading_expect _ _ _).bind fun _ =>
        (failsReading_expect _ _ _).bind fun _ => .ok _
    · exact .error r.ofReading_unexpected
  · exact (failsReading_expect _ _ _).map _

theorem failsReading_operand (m : Mnemonic) (r : Rest) : FailsReading (r.operand m) := by
  unfold operand
  split
  · exact .ok _
  · exact (failsReading_byteAt _ _).map _
  · exact .error trivial
  · split
    · exact .ok _
    · split
      · exact .ok _
      · exact .ok _
  · exact failsReading_indexed _ _
  · exact .ok _
  · exact failsReading_indirect _ _
  · exact (failsReading_expect _ _ _).map _
  · exact .error (ofReading_unexpected _)
  · exact .error (ofReading_unexpected _)

theorem failsReading_instruction (m : Mnemonic) (r : Rest) :
    FailsReading (r.instruction m) := by
  apply (failsReading_operand m r).bind
  intro p
  rcases p with ⟨operand, rest⟩
  cases hfound : Instruction.of? m operand with
  | none =>
      simp only [hfound]
      exact .error trivial
  | some i =>
      simp only [hfound]
      exact .ok _

theorem failsReading_definition (r : Rest) : FailsReading r.definition := by
  unfold definition
  split
  · exact (failsReading_expect _ _ _).map _
  · exact .ok _

theorem failsReading_nucleus (r : Rest) : FailsReading r.nucleus := by
  unfold nucleus
  split
  · exact .ok _
  · exact .error trivial
  · exact (failsReading_directive _ _ _).map _
  · exact (failsReading_instruction _ _).map _
  · exact .error r.ofReading_unexpected

end Rest

theorem Statement.ofReading_of_ofLine {l : TokenLine} {e : StatementError}
    (h : ofLine l = .error e) : e.kind.OfReading := by
  rcases mapError_eq_error_iff.mp h with ⟨f, hf, rfl⟩
  have hreads : FailsReading (ofTokens l.number l.tokens) :=
    (Rest.failsReading_definition _).bind fun _ =>
      (Rest.failsReading_nucleus _).bind fun _ =>
        (Rest.failsReading_expectEnd _).bind fun _ => .ok _
  exact hreads f hf

/-!
# Sources
-/

theorem mapM_eq_ok_iff {ε α β : Type} {f : α -> Except ε β} {xs : List α} {ys : List β} :
    xs.mapM f = .ok ys <-> List.Forall₂ (fun x y => f x = .ok y) xs ys := by
  induction xs generalizing ys with
  | nil =>
      rw [List.forall₂_nil_left_iff]
      constructor
      · intro h
        cases h
        rfl
      · intro h
        rw [h]
        rfl
  | cons x xs ih =>
      simp only [List.mapM_cons, bind_eq_ok_iff, ih, List.forall₂_cons_left_iff]
      constructor
      · intro h
        rcases h with ⟨y, hy, ys, hys, heq⟩
        cases heq
        exact ⟨y, ys, hy, hys, rfl⟩
      · intro h
        rcases h with ⟨y, ys, hy, hys, rfl⟩
        exact ⟨y, hy, ys, hys, rfl⟩

namespace TokenLine

/-- Each text is scanned as the line beside it, and the lines are numbered from one. -/
def Scans (texts : List String) (ls : List TokenLine) : Prop :=
  List.Forall₂ (fun text l => ofText text.2 text.1 = .ok l) (texts.zipIdx 1) ls

theorem ofTexts_eq_ok_iff {texts : List String} {ls : List TokenLine} :
    ofTexts texts = .ok ls <-> Scans texts ls :=
  mapM_eq_ok_iff

theorem ofTexts_eq_error_iff {texts : List String} {e : LexError} :
    ofTexts texts = .error e <->
      exists before text after ls, texts = before ++ text :: after ∧ Scans before ls ∧
        ofText (before.length + 1) text = .error e := by
  unfold ofTexts
  rw [mapM_eq_error_iff]
  constructor
  · intro h
    rcases h with ⟨numbered, x, others, ls, heq, hbefore, hx⟩
    rcases List.zipIdx_eq_append_iff.mp heq with ⟨before, rest, rfl, rfl, hrest⟩
    rcases List.zipIdx_eq_cons_iff.mp hrest.symm with ⟨text, after, rfl, rfl, _⟩
    rw [Nat.add_comm] at hx
    exact ⟨before, text, after, ls, rfl, mapM_eq_ok_iff.mp hbefore, hx⟩
  · intro h
    rcases h with ⟨before, text, after, ls, rfl, hbefore, htext⟩
    rw [Nat.add_comm] at htext
    refine ⟨before.zipIdx 1, (text, 1 + before.length), after.zipIdx (1 + before.length + 1), ls,
      ?_, mapM_eq_ok_iff.mpr hbefore, htext⟩
    rw [List.zipIdx_append, List.zipIdx_cons]

end TokenLine

namespace Source

/-- The lines of a source as they are scanned. -/
def texts (source : String) : List String :=
  (Text.lines source).map normalize

/-- The failure that a source is given up with. -/
inductive Reports (source : String) : SourceError -> Prop where
  /-- A text cannot be scanned, and it is the first. -/
  | scan {before after : List String} {text : String} {ls : List TokenLine} {e : LexError} :
      texts source = before ++ text :: after -> TokenLine.Scans before ls ->
      TokenLine.ofText (before.length + 1) text = .error e ->
      Reports source (.lex e)
  /-- All texts can be scanned, but a line cannot be read or placed, and it is the first. -/
  | line {ls before after : List TokenLine} {l : TokenLine} {sts : List Statement}
      {e : StatementError} :
      TokenLine.Scans (texts source) ls -> ls = before ++ l :: after ->
      Statement.Reads before sts -> Layout.Sound sts ->
      l.Fails (Cursor.start.run sts) e ->
      Reports source (.statement e)
  /-- All lines can be placed, but a reference that waits fails, and it is the first. -/
  | reference {ls : List TokenLine} {sts : List Statement} {before after : List Site} {q : Site}
      {e : StatementError} :
      TokenLine.Scans (texts source) ls -> Statement.Reads ls sts -> Layout.Sound sts ->
      Layout.sites sts = before ++ q :: after ->
      (forall r, r ∈ before -> r.lateFault? (Layout.table sts) = none) ->
      q.lateFault? (Layout.table sts) = some e ->
      Reports source (.statement e)

end Source

theorem Program.ofLines_eq_error_iff {ls : List TokenLine} {e : StatementError} :
    ofLines ls = .error e <->
      State.start.lines ls = .error e ∨
        exists sts, Statement.Reads ls sts ∧ Layout.Sound sts ∧
          (Layout.sites sts).findSome? (Site.lateFault? (Layout.table sts)) = some e := by
  unfold ofLines
  rw [bind_eq_error_iff]
  apply or_congr_right
  constructor
  · intro h
    rcases h with ⟨s, hlines, hfinish⟩
    rcases State.lines_eq_ok_iff.mp hlines with ⟨sts, hreads, hsteps⟩
    exact ⟨sts, hreads, Layout.sound_iff_exists_steps.mpr ⟨s, hsteps⟩,
      (State.failsBy_finish hsteps e).mp hfinish⟩
  · intro h
    rcases h with ⟨sts, hreads, hsound, hfault⟩
    rcases Layout.sound_iff_exists_steps.mp hsound with ⟨s, hsteps⟩
    exact ⟨s, State.lines_eq_ok_iff.mpr ⟨sts, hreads, hsteps⟩,
      (State.failsBy_finish hsteps e).mpr hfault⟩

namespace Source

theorem reports_of_ofSource {source : String} {e : SourceError}
    (h : Program.ofSource source = .error e) : Reports source e := by
  rcases bind_eq_error_iff.mp h with hscan | ⟨ls, hls, hlines⟩
  · rcases mapError_eq_error_iff.mp hscan with ⟨e', herror, rfl⟩
    rcases TokenLine.ofTexts_eq_error_iff.mp herror with
      ⟨before, text, after, ls, htexts, hbefore, htext⟩
    exact .scan htexts hbefore htext
  · have hscans := TokenLine.ofTexts_eq_ok_iff.mp (mapError_eq_ok_iff.mp hls)
    rcases mapError_eq_error_iff.mp hlines with ⟨e', herror, rfl⟩
    rcases Program.ofLines_eq_error_iff.mp herror with hline | ⟨sts, hreads, hsound, hlate⟩
    · rcases State.lines_eq_error_iff.mp hline with
        ⟨before, l, after, sts, heq, hreads, hsound, hfails⟩
      exact .line hscans heq hreads hsound hfails
    · rcases List.findSome?_eq_some_iff.mp hlate with ⟨before, q, after, hsites, hq, hbefore⟩
      exact .reference hscans hreads hsound hsites hbefore hq

theorem ofSource_of_reports {source : String} {e : SourceError} (h : Reports source e) :
    Program.ofSource source = .error e := by
  apply bind_eq_error_iff.mpr
  cases h with
  | scan htexts hbefore htext =>
      have herror := TokenLine.ofTexts_eq_error_iff.mpr ⟨_, _, _, _, htexts, hbefore, htext⟩
      exact Or.inl (mapError_eq_error_iff.mpr ⟨_, herror, rfl⟩)
  | line hscans heq hreads hsound hfails =>
      have hline := State.lines_eq_error_iff.mpr ⟨_, _, _, _, heq, hreads, hsound, hfails⟩
      have herror := Program.ofLines_eq_error_iff.mpr (Or.inl hline)
      exact Or.inr ⟨_, mapError_eq_ok_iff.mpr (TokenLine.ofTexts_eq_ok_iff.mpr hscans),
        mapError_eq_error_iff.mpr ⟨_, herror, rfl⟩⟩
  | reference hscans hreads hsound hsites hbefore hq =>
      have hlate := List.findSome?_eq_some_iff.mpr ⟨_, _, _, hsites, hq, hbefore⟩
      have herror := Program.ofLines_eq_error_iff.mpr (Or.inr ⟨_, hreads, hsound, hlate⟩)
      exact Or.inr ⟨_, mapError_eq_ok_iff.mpr (TokenLine.ofTexts_eq_ok_iff.mpr hscans),
        mapError_eq_error_iff.mpr ⟨_, herror, rfl⟩⟩

/-- A label that is nowhere defined is reported only if every line is as it should be. -/
theorem sound_of_unresolved {source name : String} {line token : Nat}
    (h : Reports source (.statement ⟨.unresolvedLabel name, line, token⟩)) :
    exists ls sts, TokenLine.Scans (texts source) ls ∧ Statement.Reads ls sts ∧
      Layout.Sound sts := by
  cases h with
  | line _ _ _ _ hfails =>
      cases hfails with
      | unreadable hread => exact (Statement.ofReading_of_ofLine hread).elim
      | misplaced _ hfault => exact (Site.ofPlacing_of_fault hfault).elim
  | reference hscans hreads hsound _ _ _ => exact ⟨_, _, hscans, hreads, hsound⟩

end Source

theorem Program.ofSource_reports_first_failure (source : String) :
    (forall e, ofSource source = .error e <-> Source.Reports source e) ∧
      (forall name line token,
        ofSource source = .error (.statement ⟨.unresolvedLabel name, line, token⟩) ->
        exists ls sts, TokenLine.Scans (Source.texts source) ls ∧ Statement.Reads ls sts ∧
          Layout.Sound sts) := by
  constructor
  · intro e
    exact ⟨Source.reports_of_ofSource, Source.ofSource_of_reports⟩
  · intro name line token h
    exact Source.sound_of_unresolved (Source.reports_of_ofSource h)

/-- Two references that fail at the end: one to no label, and one to a label out of reach. -/
def Source.unresolvedJump : String :=
  "JMP L1\nBNE L2\n.ORG $100\nL2:"

theorem Program.unresolvedJump_reported :
    ofSource Source.unresolvedJump = .error (.statement ⟨.unresolvedLabel "L1", 1, 2⟩) ∧
      Source.Reports Source.unresolvedJump (.statement ⟨.unresolvedLabel "L1", 1, 2⟩) ∧
      exists ls sts, TokenLine.Scans (Source.texts Source.unresolvedJump) ls ∧
        Statement.Reads ls sts ∧ Layout.Sound sts := by
  have hsource : ofSource Source.unresolvedJump =
      .error (.statement ⟨.unresolvedLabel "L1", 1, 2⟩) := by decide +kernel
  have hfirst := ofSource_reports_first_failure Source.unresolvedJump
  exact ⟨hsource, (hfirst.left _).mp hsource, hfirst.right _ _ _ hsource⟩

end Asm65
