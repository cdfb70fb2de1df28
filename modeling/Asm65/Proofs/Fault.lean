import Asm65.Proofs.Step

/-!
# What stops a statement

A statement can fail in several ways at once, and then the order of the checks decides what
is reported: the label comes before the rest, the end of memory before a label that is taken,
the opcode before the operand, and the reach of a branch before the byte that holds it.

The failures are read off the site of a statement.  A step fails exactly as its site says.
-/

namespace Asm65

/-!
# Failures as values
-/

/-- The outcome is a failure exactly if there is a fault, and then it is that fault. -/
def FailsBy {ε α : Type} (x : Except ε α) (fault? : Option ε) : Prop :=
  forall e, x = .error e <-> fault? = some e

namespace FailsBy

variable {ε ε' α β : Type}

theorem ok (a : α) : FailsBy (.ok a : Except ε α) none := by
  intro e
  simp

theorem error (e : ε) : FailsBy (.error e : Except ε α) (some e) := by
  intro e'
  simp

theorem bind {x : Except ε α} {f : α -> Except ε β} {first? second? : Option ε}
    (hx : FailsBy x first?) (hf : forall a, x = .ok a -> FailsBy (f a) second?) :
    FailsBy (x >>= f) (first?.or second?) := by
  intro e
  cases houtcome : x with
  | error e' =>
      have hfirst := (hx e').mp houtcome
      rw [hfirst]
      exact error e' e
  | ok a =>
      have hfirst : first? = none := by
        cases hfault : first? with
        | none => rfl
        | some e' =>
            have herror := (hx e').mpr hfault
            rw [houtcome] at herror
            cases herror
      rw [hfirst]
      exact hf a houtcome e

theorem map {x : Except ε α} {fault? : Option ε} (hx : FailsBy x fault?) (f : α -> β) :
    FailsBy (x.map f) fault? := by
  intro e
  rw [map_eq_error_iff]
  exact hx e

theorem located {x : Except StatementError.Kind α} {fault? : Option StatementError.Kind}
    (hx : FailsBy x fault?) (line token : Nat) :
    FailsBy (located line token x) (fault?.map fun kind => ⟨kind, line, token⟩) := by
  intro e
  unfold Asm65.located
  rw [mapError_eq_error_iff, Option.map_eq_some_iff]
  simp only [hx _]

/-- What has no fault goes through. -/
theorem eq_none_iff {x : Except ε α} {fault? : Option ε} (hx : FailsBy x fault?) :
    fault? = none <-> exists a, x = .ok a := by
  cases houtcome : x with
  | error e =>
      rw [(hx e).mp houtcome]
      simp
  | ok a =>
      cases hfault : fault? with
      | none =>
          simp
      | some e =>
          have herror := (hx e).mpr hfault
          rw [houtcome] at herror
          cases herror

end FailsBy

/-!
# The end of memory and the reach of branches
-/

/-- The fault of going up to `stop`, if that is behind the end of memory. -/
def pastEnd? (stop : Nat) : Option StatementError.Kind :=
  if stop ≤ 65536 then none else some .pcOverflow

theorem pastEnd?_eq_none_iff {stop : Nat} : pastEnd? stop = none <-> stop ≤ 65536 := by
  unfold pastEnd?
  split
  · next h => simp [h]
  · next h => simp [h]

theorem eq_of_pastEnd {stop line token : Nat} {e : StatementError}
    (h : ((pastEnd? stop).map fun kind => ⟨kind, line, token⟩) = some e) :
    e = ⟨.pcOverflow, line, token⟩ := by
  unfold pastEnd? at h
  split at h
  · cases h
  · cases h
    rfl

theorem pastEnd?_or {near far : Nat} (h : near ≤ far) :
    (pastEnd? near).or (pastEnd? far) = pastEnd? far := by
  by_cases hnear : near ≤ 65536
  · rw [pastEnd?_eq_none_iff.mpr hnear, Option.none_or]
  · have hfar : ¬ far ≤ 65536 := fun hle => hnear (Nat.le_trans h hle)
    simp only [pastEnd?, if_neg hnear, if_neg hfar, Option.some_or]

instance (target start : Nat) (kind : RefKind) : Decidable (kind.Reaches target start) :=
  match kind with
  | .absolute => inferInstanceAs (Decidable True)
  | .relative => inferInstanceAs (Decidable (_ ∧ _))

/-- The fault of a branch at `start` that does not reach `target`. -/
def RefKind.outOfReach? (target start : Nat) (kind : RefKind) : Option StatementError.Kind :=
  if kind.Reaches target start then none
  else some (.offsetOutOfRange (RefKind.distance target start))

theorem RefKind.outOfReach?_eq_none_iff {kind : RefKind} {target start : Nat} :
    kind.outOfReach? target start = none <-> kind.Reaches target start := by
  unfold outOfReach?
  split
  · next h => simp [h]
  · next h => simp [h]

theorem RefKind.eq_of_outOfReach {kind : RefKind} {target start line token : Nat}
    {e : StatementError}
    (h : ((kind.outOfReach? target start).map fun fault => ⟨fault, line, token⟩) = some e) :
    ¬ kind.Reaches target start ∧
      e = ⟨.offsetOutOfRange (RefKind.distance target start), line, token⟩ := by
  unfold outOfReach? at h
  split at h
  · cases h
  · next hfar =>
      cases h
      exact ⟨hfar, rfl⟩

theorem RefKind.failsBy_encode (kind : RefKind) (target origin : UInt16) :
    FailsBy (kind.encode target origin) (kind.outOfReach? target.toNat origin.toNat) := by
  cases kind with
  | absolute =>
      exact FailsBy.ok _
  | relative =>
      have hoffset : branchOffset target origin =
          if relative.Reaches target.toNat origin.toNat
          then .ok (UInt8.ofInt (distance target.toNat origin.toNat))
          else .error (.offsetOutOfRange (distance target.toNat origin.toNat)) := rfl
      apply FailsBy.map
      rw [hoffset, outOfReach?]
      split
      · exact FailsBy.ok _
      · exact FailsBy.error _

namespace State

theorem failsBy_emit (s : State) (b : UInt8) : FailsBy (s.emit b) (pastEnd? (s.counter + 1)) := by
  unfold emit
  cases hover : s.overflowed with
  | true =>
      rw [counter_of_overflowed hover]
      exact FailsBy.error _
  | false =>
      rw [pastEnd?_eq_none_iff.mpr (counter_lt_iff.mpr hover)]
      exact FailsBy.ok _

theorem failsBy_emitAll (s : State) (bs : List UInt8) :
    FailsBy (s.emitAll bs) (pastEnd? (s.counter + bs.length)) := by
  induction bs generalizing s with
  | nil =>
      rw [List.length_nil, Nat.add_zero, pastEnd?_eq_none_iff.mpr s.counter_le]
      exact FailsBy.ok s
  | cons b bs ih =>
      rw [List.length_cons, <- pastEnd?_or (Nat.add_le_add_left (Nat.le_add_left 1 _) _)]
      apply FailsBy.bind (failsBy_emit s b)
      intro t ht
      have hrest := ih t
      rwa [counter_of_emit ht, Nat.add_assoc, Nat.add_comm 1] at hrest

end State

/-!
# The faults of a site
-/

namespace Site

/-- The label would stand behind the last byte of memory. -/
def labelOverflow? (q : Site) : Option StatementError := do
  let l ← q.statement.label?
  (pastEnd? (q.start + 1)).map fun kind => ⟨kind, q.statement.line, l.token⟩

/-- The label is defined on an earlier line. -/
def duplicate? (q : Site) : Option StatementError := do
  let l ← q.statement.label?
  (q.cursor.table l.name).map fun _ =>
    ⟨.duplicateLabel l.name, q.statement.line, l.token⟩

/-- The opcode of an instruction would stand behind the last byte of memory. -/
def opcodeOverflow? (q : Site) : Option StatementError :=
  match q.statement.nucleus? with
  | some (.instruction _) =>
      (pastEnd? (q.start + 1)).map fun kind =>
        ⟨kind, q.statement.line, q.statement.nucleusToken⟩
  | _ => none

/-- A branch does not reach its label, which is defined on its own line or an earlier one. -/
def outOfReach? (q : Site) : Option StatementError := do
  let (kind, l) ← q.statement.reference?
  let target ← q.known l.name
  (kind.outOfReach? target q.start).map fun fault => ⟨fault, q.statement.line, l.token⟩

/-- The last byte of the statement would stand behind the last byte of memory. -/
def bytesOverflow? (q : Site) : Option StatementError :=
  (pastEnd? (q.start + q.statement.size)).map fun kind =>
    ⟨kind, q.statement.line, q.statement.nucleusToken⟩

def labelFault? (q : Site) : Option StatementError :=
  q.labelOverflow?.or q.duplicate?

def nucleusFault? (q : Site) : Option StatementError :=
  (q.opcodeOverflow?.or q.outOfReach?).or q.bytesOverflow?

/-- The failure at which the statement is given up: the first that it has, in this order. -/
def fault? (q : Site) : Option StatementError :=
  q.labelFault?.or q.nucleusFault?

end Site

/-- The operand of an instruction at `start` refers to a known label that it does not reach. -/
def Payload.outOfReach? (table : String -> Option Nat) (start line : Nat) :
    Payload -> Option StatementError
  | .literal _ => none
  | .reference kind l => do
      let target ← table l.name
      (kind.outOfReach? target start).map fun fault => ⟨fault, line, l.token⟩

theorem Site.outOfReach?_of_instruction {q : Site} {i : Instruction}
    (h : q.statement.nucleus? = some (.instruction i)) :
    q.outOfReach? = i.operand.payload.outOfReach? q.known q.start q.statement.line := by
  unfold outOfReach? Statement.reference?
  simp only [h, Operand.reference?_eq]
  cases i.operand.payload with
  | literal bs => simp [Payload.outOfReach?]
  | reference kind l => simp [Payload.outOfReach?]

namespace State

theorem failsBy_label (s : State) (st : Statement) :
    FailsBy (s.label st) (Site.labelFault? ⟨s.cursor, st⟩) := by
  unfold label Site.labelFault? Site.labelOverflow? Site.duplicate?
  cases st.label? with
  | none =>
      exact FailsBy.ok s
  | some l =>
      have hstart : (Site.mk s.cursor st).start = s.counter := rfl
      simp only [hstart, define]
      cases hover : s.overflowed with
      | true =>
          rw [counter_of_overflowed hover]
          exact FailsBy.error _
      | false =>
          rw [pastEnd?_eq_none_iff.mpr (counter_lt_iff.mpr hover), cursor_table]
          simp only [Option.bind_eq_bind, Option.bind_some, Symbols.table]
          cases s.symbols.address? l.name with
          | none => exact FailsBy.ok _
          | some a => exact FailsBy.error _

theorem failsBy_operand (s : State) (line token : Nat) (p : Payload) :
    FailsBy (s.operand line token p)
      ((p.outOfReach? s.cursor.table (s.pc - 1).toNat line).or
        ((pastEnd? (s.counter + (p.bytes s.cursor.table (s.pc - 1).toNat).length)).map
          fun kind => ⟨kind, line, token⟩)) := by
  cases p with
  | literal bs =>
      exact (failsBy_emitAll s bs).located line token
  | reference kind l =>
      rw [Payload.reference_bytes_length]
      simp only [operand, Payload.outOfReach?, cursor_table, Symbols.table]
      cases s.symbols.address? l.name with
      | none =>
          have hemit := failsBy_emitAll (s.defer line l kind) kind.placeholder
          rw [kind.placeholder_length] at hemit
          exact hemit.located line token
      | some target =>
          apply ((kind.failsBy_encode target (s.pc - 1)).located line l.token).bind
          intro bs hbs
          have hbytes := (RefKind.encode_eq_ok_iff.mp (located_eq_ok_iff.mp hbs)).right
          have hemit := failsBy_emitAll s bs
          rw [hbytes, kind.bytes_length] at hemit
          rw [hbytes]
          exact hemit.located line token

theorem failsBy_instruction {u : State} {q : Site} {i : Instruction} (hat : At u q)
    (hnucleus : q.statement.nucleus? = some (.instruction i)) :
    FailsBy (u.instruction q.statement.line q.statement.nucleusToken i) q.nucleusFault? := by
  have hsize : q.statement.size = 1 + i.operand.mode.operandSize := by
    simp only [Statement.size, hnucleus, Instruction.size]
  have hopcode : q.opcodeOverflow? = (pastEnd? (u.counter + 1)).map fun kind =>
      ⟨kind, q.statement.line, q.statement.nucleusToken⟩ := by
    simp only [Site.opcodeOverflow?, hnucleus, hat.counter]
  rw [Site.nucleusFault?, Option.or_assoc, hopcode]
  apply ((failsBy_emit u i.opcode).located _ _).bind
  intro t ht
  have hemit := located_eq_ok_iff.mp ht
  have hoperand := failsBy_operand t q.statement.line q.statement.nucleusToken i.operand.payload
  rw [cursor_table_of_emit hemit, (pc_of_emit hemit).right, counter_of_emit hemit,
    i.operand.payload_bytes_length, hat.table, hat.counter, Nat.add_assoc, <- hsize,
    <- Site.outOfReach?_of_instruction hnucleus] at hoperand
  exact hoperand

theorem failsBy_directive {u : State} {q : Site} {d : Directive} (hat : At u q)
    (hnucleus : q.statement.nucleus? = some (.directive d)) :
    FailsBy (located q.statement.line q.statement.nucleusToken (u.emitAll d.emitted))
      q.nucleusFault? := by
  have hfault : q.nucleusFault? = (pastEnd? (u.counter + d.emitted.length)).map fun kind =>
      ⟨kind, q.statement.line, q.statement.nucleusToken⟩ := by
    simp [Site.nucleusFault?, Site.opcodeOverflow?, Site.outOfReach?, Site.bytesOverflow?,
      Statement.reference?, Statement.size, hnucleus, hat.counter, d.length_emitted]
  rw [hfault]
  exact (failsBy_emitAll u d.emitted).located _ _

theorem failsBy_nucleus {u : State} {q : Site} (hat : At u q) :
    FailsBy (u.nucleus q.statement.line q.statement.nucleusToken q.statement.nucleus?)
      q.nucleusFault? := by
  cases hnucleus : q.statement.nucleus? with
  | none =>
      have hle : q.start ≤ 65536 := by
        rw [<- hat.counter]
        exact u.counter_le
      have hfault : q.nucleusFault? = none := by
        simp [Site.nucleusFault?, Site.opcodeOverflow?, Site.outOfReach?, Site.bytesOverflow?,
          Statement.reference?, Statement.size, hnucleus, pastEnd?_eq_none_iff.mpr hle]
      rw [hfault]
      exact FailsBy.ok u
  | some n =>
      cases n with
      | instruction i =>
          exact failsBy_instruction hat hnucleus
      | directive d =>
          have hemit := failsBy_directive hat hnucleus
          cases d with
          | origin a =>
              -- an origin emits nothing, so it cannot fail
              rw [hemit.eq_none_iff.mpr ⟨u, rfl⟩]
              exact FailsBy.ok (u.moveTo a)
          | _ => exact hemit

theorem failsBy_step (s : State) (st : Statement) :
    FailsBy (s.step st) (Site.fault? ⟨s.cursor, st⟩) := by
  have hstep : s.step st =
      s.label st >>= fun u => u.nucleus st.line st.nucleusToken st.nucleus? := by
    unfold step label
    cases st.label? <;> rfl
  rw [hstep]
  apply (failsBy_label s st).bind
  intro u hu
  exact failsBy_nucleus (at_of_label hu)

end State

/-!
# Sites without a fault
-/

namespace Site

theorem labelFault?_eq_none_iff {q : Site} :
    q.labelFault? = none <->
      forall l, q.statement.label? = some l ->
        q.start < 65536 ∧ q.cursor.table l.name = none := by
  unfold labelFault? labelOverflow? duplicate?
  cases q.statement.label? with
  | none => simp
  | some l =>
      have hstop : pastEnd? (q.start + 1) = none <-> q.start < 65536 := pastEnd?_eq_none_iff
      simp [hstop]

theorem outOfReach?_eq_none_iff {q : Site} :
    q.outOfReach? = none <->
      forall kind l target, q.statement.reference? = some (kind, l) ->
        q.known l.name = some target -> kind.Reaches target q.start := by
  unfold outOfReach?
  cases q.statement.reference? with
  | none =>
      simp
  | some r =>
      rcases r with ⟨kind, l⟩
      have honly : (forall kind' l' target, some (kind, l) = some (kind', l') ->
          q.known l'.name = some target -> kind'.Reaches target q.start) <->
          forall target, q.known l.name = some target -> kind.Reaches target q.start := by
        constructor
        · intro h target
          exact h kind l target rfl
        · intro h kind' l' target hsame
          cases hsame
          exact h target
      rw [honly]
      cases hknown : q.known l.name with
      | none => simp [hknown]
      | some target => simp [hknown, RefKind.outOfReach?_eq_none_iff]

theorem bytesOverflow?_eq_none_iff {q : Site} :
    q.bytesOverflow? = none <-> q.start + q.statement.size ≤ 65536 := by
  rw [bytesOverflow?, Option.map_eq_none_iff, pastEnd?_eq_none_iff]

/-- An instruction that ends within memory begins there. -/
theorem opcodeOverflow?_eq_none {q : Site} (h : q.start + q.statement.size ≤ 65536) :
    q.opcodeOverflow? = none := by
  unfold opcodeOverflow?
  split
  · next i hnucleus =>
      have hsize : q.statement.size = 1 + i.operand.mode.operandSize := by
        simp only [Statement.size, hnucleus, Instruction.size]
      rw [Option.map_eq_none_iff, pastEnd?_eq_none_iff]
      omega
  · rfl

theorem fault?_eq_none_iff {q : Site} : q.fault? = none <-> q.Admissible := by
  unfold fault? nucleusFault?
  simp only [Option.or_eq_none_iff, labelFault?_eq_none_iff, outOfReach?_eq_none_iff,
    bytesOverflow?_eq_none_iff]
  constructor
  · intro h
    exact ⟨h.right.right, h.left, h.right.left.right⟩
  · intro h
    exact ⟨h.fresh, ⟨opcodeOverflow?_eq_none h.fits, h.reaches⟩, h.fits⟩

end Site
end Asm65
