import Asm65.Proofs.Failure
import Asm65.Proofs.Spacing
import Asm65.Run

/-!
# Where failures point

A reader fails at the token that it looks at, or at the last one that it has read.  A statement
that cannot be placed fails at its label, at its nucleus or at the label that it refers to, and
a reference that waits carries the number of its label with it until the end.  All of these are
tokens of the line that the failure names, so that line can be shown.
-/

namespace Asm65

/-!
# Positions in a line
-/

/-- The token has this number on its line.  Tokens are counted from one. -/
def Token.StandsAt (ts : List Token) (number : Nat) (t : Token) : Prop :=
  1 ≤ number ∧ ts[number - 1]? = some t

namespace StatementError.Kind

/-- A failure that is about a label has that label for its token. -/
def Concerns : StatementError.Kind -> Token -> Prop
  | .duplicateLabel name, t => t = .label name
  | .unresolvedLabel name, t => t = .label name
  | .labelNotAtLineStart name, t => t = .label name
  | .offsetOutOfRange _, t => exists name, t = .label name
  | _, _ => True

/-- A failure is at a token that it is about, or behind the last token where one is missing. -/
inductive PointsAt (ts : List Token) (number : Nat) (kind : StatementError.Kind) : Prop where
  | token {t : Token} (ht : t.StandsAt ts number) (h : kind.Concerns t) : PointsAt ts number kind
  | behind {wanted : String} (hnumber : number = ts.length + 1)
      (h : kind = .expected wanted "EOL") : PointsAt ts number kind

end StatementError.Kind

def Fault.PointsInto (ts : List Token) (f : Fault) : Prop :=
  f.kind.PointsAt ts f.token

/-- The reader fails at a position of the line, or it yields what `Q` holds of. -/
inductive PointsOr {α : Type} (ts : List Token) (Q : α -> Prop) : Except Fault α -> Prop where
  | ok {a : α} (h : Q a) : PointsOr ts Q (.ok a)
  | error {f : Fault} (h : f.PointsInto ts) : PointsOr ts Q (.error f)

namespace PointsOr

variable {α β : Type} {ts : List Token} {Q : α -> Prop} {R : β -> Prop} {x : Except Fault α}

theorem bind {g : α -> Except Fault β} (hx : PointsOr ts Q x)
    (hg : forall a, Q a -> PointsOr ts R (g a)) : PointsOr ts R (x >>= g) := by
  cases hx with
  | ok h => exact hg _ h
  | error h => exact .error h

theorem map {g : α -> β} (hx : PointsOr ts Q x) (hg : forall a, Q a -> R (g a)) :
    PointsOr ts R (x.map g) := by
  cases hx with
  | ok h => exact .ok (hg _ h)
  | error h => exact .error h

theorem of_error {f : Fault} (hx : PointsOr ts Q x) (h : x = .error f) : f.PointsInto ts := by
  cases hx with
  | ok _ => cases h
  | error hf =>
      cases h
      exact hf

end PointsOr

/-!
# Readers
-/

namespace Rest

/-- The rest of a line of which `k` tokens or more have been read. -/
def Leaves (ts : List Token) (k : Nat) (r : Rest) : Prop :=
  exists before, ts = before ++ r.tokens ∧ r.next = before.length + 1 ∧ k ≤ before.length

variable {ts rest : List Token} {k : Nat} {r : Rest} {t : Token}

theorem leaves_all (ts : List Token) : Leaves ts 0 ⟨1, ts⟩ :=
  ⟨[], rfl, rfl, Nat.zero_le _⟩

theorem Leaves.weaken (h : r.Leaves ts (k + 1)) : r.Leaves ts k := by
  rcases h with ⟨before, hts, hnext, hk⟩
  exact ⟨before, hts, hnext, Nat.le_of_succ_le hk⟩

theorem Leaves.pass (h : r.Leaves ts k) (ht : r.tokens = t :: rest) :
    Leaves ts (k + 1) ⟨r.next + 1, rest⟩ := by
  rcases h with ⟨before, hts, hnext, hk⟩
  refine ⟨before ++ [t], ?_, ?_, ?_⟩
  · rw [hts, ht, List.append_cons]
  · rw [hnext, List.length_append, List.length_singleton]
  · rw [List.length_append, List.length_singleton]
    exact Nat.add_le_add_right hk 1

theorem Leaves.tail (h : r.Leaves ts k) (ht : r.tokens = t :: rest) :
    Leaves ts k ⟨r.next + 1, rest⟩ :=
  (h.pass ht).weaken

theorem Leaves.standsAt (h : r.Leaves ts k) (ht : r.tokens = t :: rest) :
    t.StandsAt ts r.next := by
  rcases h with ⟨before, hts, hnext, _⟩
  rw [hnext, hts, ht]
  exact ⟨Nat.le_add_left 1 _, by simp⟩

/-- The token that has been read last. -/
theorem Leaves.exists_standsAt (h : r.Leaves ts (k + 1)) :
    exists t : Token, t.StandsAt ts (r.next - 1) := by
  rcases h with ⟨before, hts, hnext, hk⟩
  rcases List.eq_nil_or_concat before with rfl | ⟨front, t, rfl⟩
  · cases hk
  · rw [hnext, hts]
    exact ⟨t, by simp, by simp⟩

theorem Leaves.pointsInto_expected (h : r.Leaves ts k) (wanted : String) :
    (r.expected wanted).PointsInto ts := by
  cases htokens : r.tokens with
  | nil =>
      rcases h with ⟨before, hts, hnext, _⟩
      rw [htokens, List.append_nil] at hts
      have hfound : r.found = "EOL" := by
        simp only [found, htokens]
        rfl
      refine .behind ?_ (congrArg (StatementError.Kind.expected wanted) hfound)
      rw [hts]
      exact hnext
  | cons t rest => exact .token (h.standsAt htokens) trivial

theorem Leaves.pointsInto_unexpected (h : r.Leaves ts k) : r.unexpected.PointsInto ts := by
  unfold unexpected
  split
  · next t rest htokens => exact .token (h.standsAt htokens) trivial
  · exact h.pointsInto_expected "operand"

theorem Leaves.pointsOr_expect (h : r.Leaves ts k) (t : Token) (wanted : String) :
    PointsOr ts (Leaves ts k) (r.expect t wanted) := by
  unfold expect
  split
  · next u rest htokens =>
      split
      · exact .ok (h.tail htokens)
      · exact .error (h.pointsInto_expected wanted)
  · exact .error (h.pointsInto_expected wanted)

theorem Leaves.pointsOr_expectEnd (h : r.Leaves ts k) :
    PointsOr ts (fun _ => True) r.expectEnd := by
  unfold expectEnd
  split
  · exact .ok trivial
  · exact .error (h.pointsInto_expected _)

theorem pointsOr_byteAt {number : Nat} {n : UInt16} (h : (Token.number n).StandsAt ts number) :
    PointsOr ts (fun _ => True) (byteAt number n) := by
  unfold byteAt
  split
  · exact .ok trivial
  · exact .error (.token h trivial)

theorem pointsOr_valuesFrom {α : Type} {item : Nat -> UInt16 -> Except Fault α}
    (hitem : forall number n, (Token.number n).StandsAt ts number ->
      PointsOr ts (fun _ => True) (item number n))
    {next : Nat} {tokens : List Token} (h : Leaves ts k ⟨next, tokens⟩) :
    PointsOr ts (fun result => result.2.Leaves ts k) (valuesFrom item next tokens) := by
  fun_induction valuesFrom item next tokens with
  | case1 next n rest ih =>
      apply (hitem next n (h.standsAt rfl)).bind
      intro first _
      apply (ih ((h.tail rfl).tail rfl)).bind
      intro result hresult
      exact .ok hresult
  | case2 next n rest _ =>
      apply (hitem next n (h.standsAt rfl)).bind
      intro only _
      exact .ok (h.tail rfl)
  | case3 next tokens _ _ => exact .error (h.pointsInto_expected _)

theorem Leaves.pointsOr_number (h : r.Leaves ts k) :
    PointsOr ts (fun result => result.2.Leaves ts k) r.number := by
  unfold number
  split
  · next n rest htokens => exact .ok (h.tail htokens)
  · exact .error (h.pointsInto_expected _)

theorem pointsOr_directive {name : String} {next : Nat} {tokens : List Token}
    (h : Leaves ts k ⟨next, .directive name :: tokens⟩) :
    PointsOr ts (fun result => result.2.Leaves ts k)
      (directive name next ⟨next + 1, tokens⟩) := by
  have hrest : Leaves ts k ⟨next + 1, tokens⟩ := h.tail rfl
  have hwords : PointsOr ts (fun result => result.2.Leaves ts k)
      (valuesFrom wordAt (next + 1) tokens) :=
    pointsOr_valuesFrom (fun _ _ _ => .ok trivial) hrest
  have hbytes : PointsOr ts (fun result => result.2.Leaves ts k)
      (valuesFrom byteAt (next + 1) tokens) :=
    pointsOr_valuesFrom (fun _ _ => pointsOr_byteAt) hrest
  unfold directive
  split
  · exact hwords.map fun _ => id
  · split
    · exact hbytes.map fun _ => id
    · split
      · exact hwords.map fun _ => id
      · split
        · exact hrest.pointsOr_number.map fun _ => id
        · exact .error h.pointsInto_unexpected

theorem Leaves.pointsOr_indexed (h : r.Leaves ts k) (n : UInt16) :
    PointsOr ts (fun result => result.2.Leaves ts k) (indexed n r) := by
  unfold indexed
  split
  · next name rest htokens =>
      split
      · exact .ok (h.tail htokens)
      · split
        · exact .ok (h.tail htokens)
        · exact .error h.pointsInto_unexpected
  · exact .error h.pointsInto_unexpected

theorem Leaves.pointsOr_indirect (h : r.Leaves ts k) (n : UInt16) :
    PointsOr ts (fun result => result.2.Leaves ts k) (indirect n r) := by
  unfold indirect expectRegister expectMark
  split
  · split
    · next rest htokens =>
        apply ((h.tail htokens).pointsOr_expect _ _).bind
        intro r hr
        exact (hr.pointsOr_expect _ _).bind fun r' hr' => .ok hr'
    · next rest htokens =>
        apply ((h.tail htokens).pointsOr_expect _ _).bind
        intro r hr
        exact (hr.pointsOr_expect _ _).bind fun r' hr' => .ok hr'
    · exact .error h.pointsInto_unexpected
  · exact (h.pointsOr_expect _ _).map fun _ => id

theorem Leaves.pointsOr_operand (h : r.Leaves ts k) (m : Mnemonic) :
    PointsOr ts (fun result => result.2.Leaves ts k) (r.operand m) := by
  unfold operand
  split
  · exact .ok h
  · next n rest htokens =>
      have hnumber := h.tail htokens
      exact (pointsOr_byteAt (hnumber.standsAt rfl)).map fun _ _ => hnumber.tail rfl
  · next rest _ htokens => exact .error ((h.pass htokens).pointsInto_expected _)
  · next name rest htokens =>
      have hrest := h.tail htokens
      split
      · exact .ok hrest
      · split
        · exact .ok hrest
        · exact .ok hrest
  · next n rest htokens => exact ((h.tail htokens).tail rfl).pointsOr_indexed n
  · next n rest _ htokens => exact .ok (h.tail htokens)
  · next n rest htokens => exact ((h.tail htokens).tail rfl).pointsOr_indirect n
  · next name rest htokens =>
      exact (((h.tail htokens).tail rfl).pointsOr_expect _ _).map fun _ => id
  · next rest _ _ htokens => exact .error (h.pass htokens).pointsInto_unexpected
  · exact .error h.pointsInto_unexpected

theorem Leaves.pointsOr_instruction (h : r.Leaves ts (k + 1)) (m : Mnemonic) :
    PointsOr ts (fun result => result.2.Leaves ts k) (r.instruction m) := by
  apply (h.pointsOr_operand m).bind
  intro result hresult
  rcases result with ⟨operand, rest⟩
  cases hfound : Instruction.of? m operand with
  | none =>
      -- the failure is at the last token of the operand, or at the mnemonic if there is none
      simp only [hfound]
      rcases hresult.exists_standsAt with ⟨t, ht⟩
      exact .error (.token ht trivial)
  | some i =>
      simp only [hfound]
      exact .ok hresult.weaken

theorem Leaves.pointsOr_definition (h : r.Leaves ts k) :
    PointsOr ts (fun result => result.2.Leaves ts k) r.definition := by
  unfold definition
  split
  · next name rest htokens =>
      exact ((h.tail htokens).pointsOr_expect _ _).map fun _ => id
  · exact .ok h

theorem Leaves.pointsOr_nucleus (h : r.Leaves ts k) :
    PointsOr ts (fun result => result.2.Leaves ts k) r.nucleus := by
  rcases r with ⟨next, tokens⟩
  unfold nucleus
  split
  · exact .ok h
  · next name rest htokens => exact .error (.token (h.standsAt htokens) rfl)
  · next name rest htokens =>
      cases htokens
      exact (pointsOr_directive h).map fun _ => id
  · next m rest htokens => exact ((h.pass htokens).pointsOr_instruction m).map fun _ => id
  · exact .error h.pointsInto_unexpected

end Rest

theorem Statement.pointsInto_of_ofTokens {line : Nat} {ts : List Token} {f : Fault}
    (h : ofTokens line ts = .error f) : f.PointsInto ts := by
  have hreads : PointsOr ts (fun _ => True) (ofTokens line ts) :=
    (Rest.leaves_all ts).pointsOr_definition.bind fun _ hdefinition =>
      hdefinition.pointsOr_nucleus.bind fun _ hnucleus =>
        hnucleus.pointsOr_expectEnd.bind fun _ _ => .ok trivial
  exact hreads.of_error h

theorem Statement.pointsAt_of_ofLine {l : TokenLine} {e : StatementError}
    (h : ofLine l = .error e) : e.line = l.number ∧ e.kind.PointsAt l.tokens e.token := by
  rcases mapError_eq_error_iff.mp h with ⟨f, hf, rfl⟩
  exact ⟨rfl, pointsInto_of_ofTokens hf⟩

/-!
# Statements on their lines

A statement keeps the numbers of its labels.  They are found again in the tokens that it has
been read from.
-/

def LabelRef.StandsIn (ts : List Token) (l : LabelRef) : Prop :=
  (Token.label l.name).StandsAt ts l.token

namespace Statement

open Grammar

structure StandsOn (ts : List Token) (st : Statement) : Prop where
  label : forall l, st.label? = some l -> l.StandsIn ts
  reference : forall kind l, st.reference? = some (kind, l) -> l.StandsIn ts
  nucleus : st.nucleus? ≠ none -> exists t : Token, t.StandsAt ts st.nucleusToken

theorem standsIn_of_derivesNucleus {before ts : List Token} {n : Nucleus} {line : Nat}
    {label? : Option LabelRef} {kind : RefKind} {l : LabelRef}
    (h : DerivesNucleus (before.length + 1) ts n)
    (hl : reference? ⟨line, label?, some n⟩ = some (kind, l)) : l.StandsIn (before ++ ts) := by
  cases h with
  | directive hdirective => cases hl
  | instruction hopcode hoperand =>
      cases hoperand with
      | jump _ _ =>
          cases hl
          exact ⟨Nat.le_add_left 1 _, by simp⟩
      | branch _ _ =>
          cases hl
          exact ⟨Nat.le_add_left 1 _, by simp⟩
      | indirectLabel =>
          cases hl
          exact ⟨Nat.le_add_left 1 _, by simp [Nat.add_assoc]⟩
      | _ => cases hl

theorem exists_standsAt_of_derivesNucleus {before ts : List Token} {n : Nucleus}
    (h : DerivesNucleus (before.length + 1) ts n) :
    exists t : Token, t.StandsAt (before ++ ts) (before.length + 1) := by
  rcases Rest.derivesNucleus_head h with ⟨t, rest, rfl, _⟩
  exact ⟨t, Nat.le_add_left 1 _, by simp⟩

theorem standsOn_of_ofLine {l : TokenLine} {st : Statement} (h : ofLine l = .ok st) :
    st.StandsOn l.tokens := by
  rcases st with ⟨line, label?, nucleus?⟩
  have hline : DerivesLine l.tokens label? nucleus? := ((ofLine_eq_ok_iff l _).mp h).right
  generalize l.tokens = ts at hline ⊢
  constructor
  · intro l hl
    cases hl
    cases hline with
    | label => exact ⟨Nat.le_refl 1, rfl⟩
    | labelled _ => exact ⟨Nat.le_refl 1, rfl⟩
  · intro kind l hl
    cases hline with
    | empty => cases hl
    | label => cases hl
    | @labelled name ts _ hnucleus =>
        exact @standsIn_of_derivesNucleus [.label name, .colon] ts _ line _ kind l hnucleus hl
    | bare hnucleus => exact @standsIn_of_derivesNucleus [] ts _ line _ kind l hnucleus hl
  · intro hne
    cases hline with
    | empty => exact (hne rfl).elim
    | label => exact (hne rfl).elim
    | @labelled name ts _ hnucleus =>
        exact @exists_standsAt_of_derivesNucleus [.label name, .colon] ts _ hnucleus
    | bare hnucleus => exact @exists_standsAt_of_derivesNucleus [] ts _ hnucleus

end Statement

/-!
# Sites
-/

namespace Site

theorem pointsAt_of_pastEnd {ts : List Token} {t : Token} {stop line token : Nat}
    {e : StatementError} (ht : t.StandsAt ts token)
    (h : ((pastEnd? stop).map fun kind => ⟨kind, line, token⟩) = some e) :
    e.line = line ∧ e.kind.PointsAt ts e.token := by
  rw [eq_of_pastEnd h]
  exact ⟨rfl, .token ht trivial⟩

theorem pointsAt_of_outOfReach {ts : List Token} {l : LabelRef} {kind : RefKind}
    {target start line : Nat} {e : StatementError} (hl : l.StandsIn ts)
    (h : ((kind.outOfReach? target start).map fun fault => ⟨fault, line, l.token⟩) = some e) :
    e.line = line ∧ e.kind.PointsAt ts e.token := by
  rw [(RefKind.eq_of_outOfReach h).right]
  exact ⟨rfl, .token hl ⟨l.name, rfl⟩⟩

/-- What overflows memory is a nucleus, because all lines before have ended within it. -/
theorem nucleus?_of_bytesOverflow {q : Site} {e : StatementError} (hstart : q.start ≤ 65536)
    (h : q.bytesOverflow? = some e) : q.statement.nucleus? ≠ none := by
  intro hnone
  have hfits : q.bytesOverflow? = none := by
    rw [bytesOverflow?_eq_none_iff, Statement.size, hnone]
    exact hstart
  rw [hfits] at h
  cases h

theorem pointsAt_of_fault {q : Site} {ts : List Token} {e : StatementError}
    (hon : q.statement.StandsOn ts) (hstart : q.start ≤ 65536) (h : q.fault? = some e) :
    e.line = q.statement.line ∧ e.kind.PointsAt ts e.token := by
  simp only [fault?, labelFault?, nucleusFault?, Option.or_eq_some_iff] at h
  rcases h with (hlabel | ⟨_, hduplicate⟩) | ⟨_, (hopcode | ⟨_, hreach⟩) | ⟨_, hbytes⟩⟩
  · rcases Option.bind_eq_some_iff.mp hlabel with ⟨l, hl, hstop⟩
    exact pointsAt_of_pastEnd (hon.label l hl) hstop
  · rcases Option.bind_eq_some_iff.mp hduplicate with ⟨l, hl, htaken⟩
    rcases Option.map_eq_some_iff.mp htaken with ⟨a, _, rfl⟩
    exact ⟨rfl, .token (hon.label l hl) rfl⟩
  · unfold opcodeOverflow? at hopcode
    split at hopcode
    · next i hnucleus =>
        rcases hon.nucleus (by rw [hnucleus]; exact Option.some_ne_none _) with ⟨t, ht⟩
        exact pointsAt_of_pastEnd ht hopcode
    · cases hopcode
  · rcases Option.bind_eq_some_iff.mp hreach with ⟨⟨kind, l⟩, hl, hrest⟩
    rcases Option.bind_eq_some_iff.mp hrest with ⟨target, _, hfar⟩
    exact pointsAt_of_outOfReach (hon.reference kind l hl) hfar
  · rcases hon.nucleus (nucleus?_of_bytesOverflow hstart hbytes) with ⟨t, ht⟩
    exact pointsAt_of_pastEnd ht hbytes

theorem pointsAt_of_lateFault {q : Site} {ts : List Token} {table : String -> Option Nat}
    {e : StatementError} (hon : q.statement.StandsOn ts) (h : q.lateFault? table = some e) :
    e.line = q.statement.line ∧ e.kind.PointsAt ts e.token := by
  rcases Option.bind_eq_some_iff.mp h with ⟨⟨kind, l⟩, hdeferred, hfault⟩
  have hl := hon.reference kind l (deferred?_eq_some_iff.mp hdeferred).left
  simp only [RefKind.lateFault?] at hfault
  split at hfault
  · cases hfault
    exact ⟨rfl, .token hl rfl⟩
  · exact pointsAt_of_outOfReach hl hfault

end Site

/-!
# Programs
-/

theorem TokenLine.Fails.pointsAt {c : Cursor} {l : TokenLine} {e : StatementError}
    (hc : c.address ≤ 65536) (h : l.Fails c e) :
    e.line = l.number ∧ e.kind.PointsAt l.tokens e.token := by
  cases h with
  | unreadable hread => exact Statement.pointsAt_of_ofLine hread
  | @misplaced st _ hst hfault =>
      have hstart : Site.start ⟨c, st⟩ ≤ 65536 := hc
      have hpoints := Site.pointsAt_of_fault (Statement.standsOn_of_ofLine hst) hstart hfault
      rwa [((Statement.ofLine_eq_ok_iff l st).mp hst).left] at hpoints

theorem Layout.Sound.address_le {sts : List Statement} (h : Sound sts) :
    (Cursor.start.run sts).address ≤ 65536 := by
  rcases sound_iff_exists_steps.mp h with ⟨s, hsteps⟩
  have hcursor : s.cursor = Cursor.start.run sts := (State.follows_of_steps hsteps).cursor
  rw [<- hcursor]
  exact s.counter_le

theorem Statement.Reads.exists_line {ls : List TokenLine} {sts : List Statement} {st : Statement}
    (h : Reads ls sts) (hst : st ∈ sts) : exists l, l ∈ ls ∧ ofLine l = .ok st := by
  induction h with
  | nil => cases hst
  | cons hline _ ih =>
      rcases List.mem_cons.mp hst with rfl | hrest
      · exact ⟨_, List.mem_cons_self, hline⟩
      · rcases ih hrest with ⟨l, hl, hread⟩
        exact ⟨l, List.mem_cons_of_mem _ hl, hread⟩

/-- A program that fails does so at a token of one of its lines. -/
theorem Program.pointsAt_of_ofLines {ls : List TokenLine} {e : StatementError}
    (h : ofLines ls = .error e) :
    exists l, l ∈ ls ∧ e.line = l.number ∧ e.kind.PointsAt l.tokens e.token := by
  rcases ofLines_eq_error_iff.mp h with hline | ⟨sts, hreads, _, hlate⟩
  · rcases State.lines_eq_error_iff.mp hline with ⟨before, l, after, sts, rfl, _, hsound, hfails⟩
    exact ⟨l, List.mem_append_right _ List.mem_cons_self, hfails.pointsAt hsound.address_le⟩
  · rcases List.exists_of_findSome?_eq_some hlate with ⟨q, hq, hfault⟩
    rcases hreads.exists_line (Layout.exists_site_iff.mpr ⟨q, hq, rfl⟩) with ⟨l, hl, hline⟩
    have hpoints := Site.pointsAt_of_lateFault (Statement.standsOn_of_ofLine hline) hfault
    rw [((Statement.ofLine_eq_ok_iff l q.statement).mp hline).left] at hpoints
    exact ⟨l, hl, hpoints⟩

/-!
# Sources
-/

namespace TokenLine

theorem number_of_ofText {number : Nat} {text : String} {l : TokenLine}
    (h : ofText number text = .ok l) : l.number = number := by
  rcases map_eq_ok_iff.mp h with ⟨ts, _, rfl⟩
  rfl

/-- The lines are as many as the texts, and they are numbered from `start` on. -/
theorem numbered_of_ofTexts {texts : List String} {ls : List TokenLine} {start i : Nat}
    {l : TokenLine}
    (h : List.Forall₂ (fun text l => ofText text.2 text.1 = .ok l) (texts.zipIdx start) ls)
    (hl : ls[i]? = some l) : l.number = start + i ∧ i < texts.length := by
  induction texts generalizing start ls i with
  | nil =>
      cases h
      cases hl
  | cons text texts ih =>
      rw [List.zipIdx_cons] at h
      cases h with
      | cons hfirst hrest =>
          cases i with
          | zero =>
              cases hl
              exact ⟨number_of_ofText hfirst, Nat.zero_lt_succ _⟩
          | succ i =>
              rcases ih hrest hl with ⟨hnumber, hlt⟩
              exact ⟨by omega, Nat.succ_lt_succ hlt⟩

end TokenLine

theorem Text.length_le_utf8ByteSize (s : String) : s.toList.length ≤ s.utf8ByteSize := by
  have hchars (cs : List Char) : cs.length ≤ (String.ofList cs).utf8ByteSize := by
    induction cs with
    | nil => exact Nat.zero_le _
    | cons c cs ih =>
        have hpos := c.utf8Size_pos
        rw [List.length_cons, String.ofList_cons, String.utf8ByteSize_append,
          String.utf8ByteSize_singleton]
        omega
  have hs := hchars s.toList
  rwa [String.ofList_toList] at hs

/-- The failure of a scan is at a byte of its line. -/
theorem TokenLine.bounds_of_ofTexts {texts : List String} {e : LexError}
    (h : ofTexts texts = .error e) :
    1 ≤ e.line ∧ e.line ≤ texts.length ∧
      exists text, texts[e.line - 1]? = some text ∧ e.column < text.utf8ByteSize := by
  rcases ofTexts_eq_error_iff.mp h with ⟨before, text, after, ls, rfl, _, htext⟩
  rcases Token.bounds_of_scan (map_eq_error_iff.mp htext) with ⟨hline, _, hcolumn⟩
  have hbytes := Text.length_le_utf8ByteSize text
  rw [hline]
  refine ⟨Nat.le_add_left 1 _, by simp, text, by simp, by omega⟩

/--
The failure is at a token of the line, or behind the last one where another one is missing.
If it is about a label, then its token is that label.
-/
structure StatementError.IsOn (l : TokenLine) (e : StatementError) : Prop where
  first : 1 ≤ e.token
  last : e.token ≤ l.tokens.length + 1
  missing : e.token = l.tokens.length + 1 -> exists wanted, e.kind = .expected wanted "EOL"
  label : forall name,
    e.kind = .duplicateLabel name ∨ e.kind = .unresolvedLabel name ∨
      e.kind = .labelNotAtLineStart name -> l.tokens[e.token - 1]? = some (.label name)
  branch : forall displacement, e.kind = .offsetOutOfRange displacement ->
    exists name, l.tokens[e.token - 1]? = some (.label name)

theorem StatementError.isOn_of_pointsAt {l : TokenLine} {e : StatementError}
    (h : e.kind.PointsAt l.tokens e.token) : e.IsOn l := by
  cases h with
  | token ht hconcerns =>
      rcases ht with ⟨hfirst, ht⟩
      have hlt := (List.getElem?_eq_some_iff.mp ht).choose
      refine ⟨hfirst, by omega, fun hbehind => by omega, ?_, ?_⟩
      · rintro name (hkind | hkind | hkind)
        all_goals
          rw [hkind] at hconcerns
          rw [ht, hconcerns]
      · intro displacement hkind
        rw [hkind] at hconcerns
        rcases hconcerns with ⟨name, rfl⟩
        exact ⟨name, ht⟩
  | behind hbehind hkind =>
      refine ⟨by omega, by omega, fun _ => ⟨_, hkind⟩, ?_, ?_⟩
      · rw [hkind]
        rintro name (hlabel | hlabel | hlabel) <;> cases hlabel
      · rw [hkind]
        intro displacement hbranch
        cases hbranch

/-- The failure of a program is on one of its lines. -/
theorem Program.isOn_of_ofLines {texts : List String} {ls : List TokenLine} {e : StatementError}
    (hscan : TokenLine.ofTexts texts = .ok ls) (h : ofLines ls = .error e) :
    1 ≤ e.line ∧ e.line ≤ texts.length ∧
      exists l, ls[e.line - 1]? = some l ∧ e.IsOn l := by
  rcases pointsAt_of_ofLines h with ⟨l, hl, hline, hpoints⟩
  rcases List.getElem?_of_mem hl with ⟨i, hi⟩
  rcases TokenLine.numbered_of_ofTexts (TokenLine.ofTexts_eq_ok_iff.mp hscan) hi with
    ⟨hnumber, hlt⟩
  have hindex : e.line - 1 = i := by omega
  refine ⟨by omega, by omega, l, ?_, StatementError.isOn_of_pointsAt hpoints⟩
  rw [hindex]
  exact hi

/-!
# Reports
-/

theorem Program.exists_text_of_ofTexts {texts : List String} {e : SourceError}
    (h : ofTexts texts = .error e) :
    1 ≤ e.line ∧ exists text, texts[e.line - 1]? = some text := by
  have hline : 1 ≤ e.line ∧ e.line ≤ texts.length := by
    rcases bind_eq_error_iff.mp h with hscan | ⟨ls, hls, hlines⟩
    · rcases mapError_eq_error_iff.mp hscan with ⟨e', herror, rfl⟩
      have hbounds := TokenLine.bounds_of_ofTexts herror
      exact ⟨hbounds.left, hbounds.right.left⟩
    · rcases mapError_eq_error_iff.mp hlines with ⟨e', herror, rfl⟩
      have hbounds := isOn_of_ofLines (mapError_eq_ok_iff.mp hls) herror
      exact ⟨hbounds.left, hbounds.right.left⟩
  exact ⟨hline.left, _, List.getElem?_eq_getElem (by omega)⟩

theorem Log.upTo_failed (level : Level) (events : List Event) (report : String) :
    upTo level (events ++ [.failed report]) = upTo level events ++ [.failed report] := by
  have hshown : decide ((Event.failed report).level.rank ≤ level.rank) = true := by
    cases level <;> rfl
  rw [upTo, List.filter_append, List.filter_singleton, hshown]
  rfl

namespace Build

theorem reportLine_of_line {e : SourceError} {lines : List String} {line : String}
    (hfirst : 1 ≤ e.line) (h : lines[e.line - 1]? = some line) :
    reportLine e lines =
      e.diagnostic.report ++ "\n  | " ++ String.ofList (Text.trimEnd line.toList) := by
  have hne : ¬ e.line = 0 := by omega
  unfold reportLine
  rw [if_neg hne, h, String.append_assoc]

theorem result_ofTexts {texts : List String} {e : SourceError} (o : CommandLine.Options)
    (h : Program.ofTexts texts = .error e) :
    (ofTexts o texts).result = .error (reportLine e texts) := by
  unfold ofTexts
  rcases bind_eq_error_iff.mp h with hscan | ⟨ls, hls, hlines⟩
  · rcases mapError_eq_error_iff.mp hscan with ⟨e', herror, rfl⟩
    rw [herror]
  · rcases mapError_eq_error_iff.mp hlines with ⟨e', herror, rfl⟩
    simp only [mapError_eq_ok_iff.mp hls, ofLines, herror]

theorem result_ofFile {read : Include.Reader} {o : CommandLine.Options} {lines : List String}
    {e : SourceError} (hlines : Include.ofFile read o.maxDepth o.input = .ok lines)
    (h : Program.ofTexts lines = .error e) :
    (ofFile read o).result = .error (reportLine e lines) := by
  unfold ofFile
  rw [hlines]
  exact result_ofTexts o h

end Build

theorem Outcome.getLast?_log_of_error {o : CommandLine.Options} {files : FileTree}
    {report : String} (h : (Build.ofFile files.readText o).result = .error report) :
    (ofOptions o files).log.getLast? = some (.failed report) := by
  simp only [ofOptions, h, Log.upTo_failed, List.getLast?_concat]

/--
Every failure points into the source: the scan at a byte of a line, and the assembler at a
token of a line.  So a run that fails on its source always shows the line.
-/
theorem Program.errors_point_into_source :
    (forall texts e, TokenLine.ofTexts texts = .error e ->
      1 ≤ e.line ∧ e.line ≤ texts.length ∧
        exists text, texts[e.line - 1]? = some text ∧ e.column < text.utf8ByteSize) ∧
    (forall texts ls e, TokenLine.ofTexts texts = .ok ls -> ofLines ls = .error e ->
      1 ≤ e.line ∧ e.line ≤ texts.length ∧ exists l, ls[e.line - 1]? = some l ∧ e.IsOn l) ∧
    (forall (o : CommandLine.Options) (files : FileTree) lines e,
      Include.ofFile files.readText o.maxDepth o.input = .ok lines -> ofTexts lines = .error e ->
      exists line, lines[e.line - 1]? = some line ∧
        (Outcome.ofOptions o files).log.getLast? =
          some (.failed (e.diagnostic.report ++ "\n  | " ++
            String.ofList (Text.trimEnd line.toList)))) := by
  refine ⟨?_, ?_, ?_⟩
  · intro texts e h
    exact TokenLine.bounds_of_ofTexts h
  · intro texts ls e hscan h
    exact isOn_of_ofLines hscan h
  · intro o files lines e hlines h
    rcases exists_text_of_ofTexts h with ⟨hfirst, line, hline⟩
    refine ⟨line, hline, ?_⟩
    rw [<- Build.reportLine_of_line hfirst hline]
    exact Outcome.getLast?_log_of_error (Build.result_ofFile hlines h)

/-- A file with a branch to nowhere, after a line that says nothing. -/
def FileTree.lostBranch : FileTree :=
  ⟨[(["main.asm"], "; lost\nl: bne far ".toUTF8)], []⟩

def CommandLine.Options.ofMain : CommandLine.Options :=
  ⟨"main.asm", "out.bin", false, false, .error, 0⟩

theorem Program.lostBranch_reported :
    (exists text, ["NOP", "LDA €"][1]? = some text ∧ 4 < text.utf8ByteSize) ∧
      StatementError.IsOn ⟨2, [.label "L", .colon, .mnemonic .bne, .label "FAR"]⟩
        ⟨.unresolvedLabel "FAR", 2, 4⟩ ∧
      (Outcome.ofOptions .ofMain .lostBranch).log.getLast? =
        some (.failed ("couldn't resolve label \"FAR\" (at line 2, token 4)\n" ++
          "help: try defining this label at the start of a line (e.g., `LABEL:`)\n" ++
          "  | L: BNE FAR")) := by
  have hscan : TokenLine.ofTexts ["NOP", "LDA €"] = .error ⟨.invalidSymbol, 2, 4⟩ := by
    decide +kernel
  have hlines : Include.ofFile FileTree.lostBranch.readText 0 "main.asm" =
      .ok ["", "L: BNE FAR "] := by
    decide +kernel
  have htokens : TokenLine.ofTexts ["", "L: BNE FAR "] =
      .ok [⟨1, []⟩, ⟨2, [.label "L", .colon, .mnemonic .bne, .label "FAR"]⟩] := by
    decide +kernel
  have hfails : ofLines [⟨1, []⟩, ⟨2, [.label "L", .colon, .mnemonic .bne, .label "FAR"]⟩] =
      .error ⟨.unresolvedLabel "FAR", 2, 4⟩ := by
    decide +kernel
  have hsource : ofTexts ["", "L: BNE FAR "] =
      .error (.statement ⟨.unresolvedLabel "FAR", 2, 4⟩) := by
    decide +kernel
  rcases errors_point_into_source with ⟨hlex, hstatement, hreport⟩
  refine ⟨(hlex _ _ hscan).right.right, ?_, ?_⟩
  · rcases (hstatement _ _ _ htokens hfails).right.right with ⟨l, hl, hon⟩
    cases hl
    exact hon
  · rcases hreport .ofMain .lostBranch _ _ hlines hsource with ⟨line, hline, hlast⟩
    cases hline
    rw [hlast]
    decide +kernel

end Asm65
