import Asm65.Proofs.Writing

/-!
# The effect of one statement

A statement is taken up exactly if its site is admissible.  Then it moves the cursor as the
layout does, stores the code of the site as far as its label is known, and queues the
reference of the site if that is deferred.

A reference is queued before the bytes that hold its place are written, and the counter may
just have run past the end of memory by then.  Nothing has to be said about that moment: the
write that follows fails, and the effects below are those of a statement as a whole.
-/

namespace Asm65

/-- The instruction of a queued reference starts one byte before the operand. -/
theorem Fixup.toNat_offset_sub_one {f : Fixup} (h : 1 ≤ f.offset.toNat) :
    (f.offset - 1).toNat + 1 = f.offset.toNat := by
  have hone : (1 : UInt16) ≤ f.offset := UInt16.le_iff_toNat_le.mpr h
  rw [UInt16.toNat_sub_of_le _ _ hone]
  exact Nat.sub_add_cancel h

namespace Site

/-- The reference that taking up the statement queues. -/
def fixup? (q : Site) : Option Fixup :=
  q.deferred?.map fun r => ⟨r.2, q.statement.line, UInt16.ofNat (q.start + 1), r.1⟩

/-- Puts the code of the site into memory, with the labels of the table. -/
def put (table : String -> Option Nat) (image : Image) (q : Site) : Image :=
  match q.statement.origin? with
  | some a => image.growTo a.toNat
  | none => image.storeAll q.start (q.code table)

theorem size_put (table : String -> Option Nat) (image : Image) (q : Site) :
    (q.put table image).size = max image.size q.reach := by
  unfold put reach
  cases q.statement.origin? with
  | some a =>
      exact image.size_growTo a.toNat
  | none =>
      have hlength : (q.code table).length = q.statement.size :=
        q.statement.code_length table q.start
      simp only [Image.size_storeAll, <- List.length_eq_zero_iff, hlength]
      split
      · exact (Nat.max_eq_left (Nat.zero_le _)).symm
      · rfl

theorem byte_put (table : String -> Option Nat) (image : Image) (q : Site) (a : Nat) :
    (q.put table image).byte a = ((q.write table).byte? a).getD (image.byte a) := by
  unfold put
  cases horigin : q.statement.origin? with
  | some origin =>
      have hcode : q.code table = [] := Statement.code_of_origin horigin table q.start
      simp [write, hcode, Write.byte?]
  | none =>
      exact image.byte_storeAll q.start a (q.code table)

def onto (image : Image) (q : Site) : Image :=
  match q.statement.origin? with
  | some a => image.growTo a.toNat
  | none => image.storeAll q.start (q.code q.known)

theorem size_onto (image : Image) (q : Site) :
    (q.onto image).size = max image.size q.reach :=
  q.size_put q.known image

/--
A statement that can be taken up: it ends within memory, its label is a new one for an
address within memory, and it reaches the label it refers to, if that is known by now.
-/
structure Admissible (q : Site) : Prop where
  fits : q.start + q.statement.size ≤ 65536
  fresh : forall l, q.statement.label? = some l ->
    q.start < 65536 ∧ q.cursor.table l.name = none
  reaches : forall kind l target, q.statement.reference? = some (kind, l) ->
    q.known l.name = some target -> kind.Reaches target q.start

theorem reach_of_reference {q : Site} {kind : RefKind} {l : LabelRef}
    (h : q.statement.reference? = some (kind, l)) : q.reach = q.start + 1 + kind.width := by
  have hsize := Statement.size_of_reference h
  have hpositive : q.statement.size ≠ 0 := by omega
  simp only [reach, Statement.origin?_of_reference h, hpositive, if_false]
  omega

theorem fixup?_eq_some_iff {q : Site} {f : Fixup} :
    q.fixup? = some f <->
      exists kind l, q.deferred? = some (kind, l) ∧
        f = ⟨l, q.statement.line, UInt16.ofNat (q.start + 1), kind⟩ := by
  unfold fixup?
  rw [Option.map_eq_some_iff]
  constructor
  · intro h
    rcases h with ⟨⟨kind, l⟩, hdeferred, hf⟩
    exact ⟨kind, l, hdeferred, hf.symm⟩
  · intro h
    rcases h with ⟨kind, l, hdeferred, hf⟩
    exact ⟨(kind, l), hdeferred, hf.symm⟩

/-- A queued reference stands right behind its opcode, and memory reaches to its end. -/
theorem Admissible.offset_of_fixup {q : Site} {f : Fixup} (hq : q.Admissible)
    (h : q.fixup? = some f) :
    f.offset.toNat = q.start + 1 ∧ f.offset.toNat + f.kind.width = q.reach := by
  rcases fixup?_eq_some_iff.mp h with ⟨kind, l, hdeferred, rfl⟩
  have hreference := (deferred?_eq_some_iff.mp hdeferred).left
  have hsize := Statement.size_of_reference hreference
  have hwidth : 0 < kind.width := by cases kind <;> decide
  have hfits := hq.fits
  have hoffset : (UInt16.ofNat (q.start + 1)).toNat = q.start + 1 :=
    UInt16.toNat_ofNat_of_lt' (by simp only [UInt16.size]; omega)
  constructor
  · exact hoffset
  · rw [reach_of_reference hreference, hoffset]

theorem Admissible.origin_of_fixup {q : Site} {f : Fixup} (hq : q.Admissible)
    (h : q.fixup? = some f) : (f.offset - 1).toNat = q.start := by
  have hoffset := (hq.offset_of_fixup h).left
  have hpred := Fixup.toNat_offset_sub_one (f := f) (by omega)
  omega

end Site

namespace State

def label (s : State) (st : Statement) : Except StatementError State :=
  match st.label? with
  | some l => s.define st.line l
  | none => .ok s

theorem step_eq_ok_iff {s t : State} {st : Statement} :
    s.step st = .ok t <->
      exists u, s.label st = .ok u ∧
        u.nucleus st.line st.nucleusToken st.nucleus? = .ok t := by
  unfold step label
  cases st.label? with
  | none => exact bind_eq_ok_iff
  | some l => exact bind_eq_ok_iff

theorem exists_label_iff {s : State} {st : Statement} :
    (exists u, s.label st = .ok u) <->
      forall l, st.label? = some l -> s.counter < 65536 ∧ s.cursor.table l.name = none := by
  unfold label
  cases st.label? with
  | none =>
      simp
  | some l =>
      simp only [define_eq_ok_iff, Option.some.injEq, forall_eq']
      constructor
      · intro h
        rcases h with ⟨u, hin, hnew, _⟩
        exact ⟨hin, hnew⟩
      · intro h
        exact ⟨_, h.left, h.right, rfl⟩

/-- A label changes the table only, and there it stands at the counter. -/
structure Labels (s u : State) (st : Statement) : Prop where
  wraps : s.Wraps -> u.Wraps
  cursor : u.cursor = ⟨s.cursor.address, st.entries s.cursor.address ++ s.cursor.labels⟩
  image : u.image = s.image
  pending : u.symbols.pending = s.symbols.pending

theorem labels_of_label {s u : State} {st : Statement} (h : s.label st = .ok u) :
    Labels s u st := by
  unfold label at h
  cases hlabel : st.label? with
  | none =>
      rw [hlabel] at h
      cases h
      constructor
      · exact id
      · simp [Statement.entries, hlabel]
      · rfl
      · rfl
  | some l =>
      rw [hlabel] at h
      rcases define_eq_ok_iff.mp h with ⟨hin, _, rfl⟩
      have hpc := counter_of_not_overflowed (counter_lt_iff.mp hin)
      constructor
      · exact id
      · simpa [cursor, Statement.entries, hlabel, Symbols.define, counter] using hpc.symm
      · rfl
      · rfl

/-- Taking up the statement of a site does to the state what the layout says. -/
structure Effect (s t : State) (q : Site) : Prop where
  wraps : s.Wraps -> t.Wraps
  cursor : t.cursor = q.cursor.next q.statement
  image : t.image = q.onto s.image
  pending : t.symbols.pending.toList = s.symbols.pending.toList ++ q.fixup?.toList

/-- A state that stands at a site, with the label of the site defined. -/
structure At (u : State) (q : Site) : Prop where
  counter : u.counter = q.start
  labels : u.cursor.labels = (q.cursor.next q.statement).labels

theorem At.table {u : State} {q : Site} (h : At u q) : u.cursor.table = q.known := by
  unfold Site.known Cursor.table
  rw [h.labels]

theorem effect_of_writes {u t : State} {q : Site} (hat : At u q)
    (horigin : q.statement.origin? = none)
    (h : Writes u t (q.code q.known) q.fixup?.toList) : Effect u t q := by
  constructor
  · exact h.wraps
  · rw [cursor_eq_of_writes h, hat.labels]
    have haddress : u.cursor.address = q.start := hat.counter
    simp [Cursor.next, Statement.after, horigin, Site.code, haddress, Site.start]
  · rw [h.image, hat.counter]
    simp only [Site.onto, horigin]
  · exact h.pending

theorem waiting_eq_fixup? {q : Site} {i : Instruction}
    (h : q.statement.nucleus? = some (.instruction i)) :
    i.operand.payload.waiting q.known q.statement.line (UInt16.ofNat (q.start + 1)) =
      q.fixup?.toList := by
  simp only [Site.fixup?, Site.deferred?, Statement.reference?, h, Operand.reference?_eq]
  cases i.operand.payload with
  | literal bs =>
      rfl
  | reference kind l =>
      simp only [Payload.waiting, Option.filter_some]
      cases q.known l.name with
      | none => rfl
      | some target => rfl

theorem effect_of_instruction {u t : State} {q : Site} {i : Instruction} {token : Nat}
    (hat : At u q) (hnucleus : q.statement.nucleus? = some (.instruction i))
    (h : u.instruction q.statement.line token i = .ok t) : Effect u t q := by
  have hwrites := writes_of_instruction h
  rw [hat.table, hat.counter, waiting_eq_fixup? hnucleus] at hwrites
  apply effect_of_writes hat
  · simp only [Statement.origin?, hnucleus]
  · simpa only [Site.code, Statement.code, hnucleus] using hwrites

theorem effect_of_emitted {u t : State} {q : Site} {d : Directive} (hat : At u q)
    (hnucleus : q.statement.nucleus? = some (.directive d))
    (horigin : q.statement.origin? = none) (h : u.emitAll d.emitted = .ok t) :
    Effect u t q := by
  apply effect_of_writes hat horigin
  simpa [Site.code, Statement.code, Site.fixup?, Site.deferred?, Statement.reference?,
    hnucleus] using writes_of_emitAll h

theorem effect_of_origin {u : State} {q : Site} {a : UInt16} (hat : At u q)
    (hnucleus : q.statement.nucleus? = some (.directive (.origin a))) :
    Effect u (u.moveTo a) q := by
  have horigin : q.statement.origin? = some a := by
    simp only [Statement.origin?, hnucleus]
  constructor
  · intro _ hover
    cases hover
  · have hcounter : (u.moveTo a).counter = a.toNat := rfl
    have hlabels : (u.moveTo a).cursor.labels = u.cursor.labels := rfl
    unfold cursor
    rw [hcounter]
    rw [hat.labels] at hlabels
    simp only [Cursor.next, Statement.after, horigin] at hlabels ⊢
    rw [<- hlabels]
    rfl
  · simp only [Site.onto, horigin]
    rfl
  · simp only [Site.fixup?, Site.deferred?, Statement.reference?, hnucleus]
    exact (List.append_nil _).symm

theorem effect_of_nucleus {u t : State} {q : Site} {token : Nat} (hat : At u q)
    (h : u.nucleus q.statement.line token q.statement.nucleus? = .ok t) :
    Effect u t q := by
  cases hnucleus : q.statement.nucleus? with
  | none =>
      rw [hnucleus] at h
      cases h
      apply effect_of_writes hat
      · simp only [Statement.origin?, hnucleus]
      · simpa [Site.code, Statement.code, Site.fixup?, Site.deferred?, Statement.reference?,
          hnucleus] using Writes.refl u
  | some nucleus =>
      rw [hnucleus] at h
      cases nucleus with
      | instruction i =>
          exact effect_of_instruction hat hnucleus h
      | directive d =>
          cases d with
          | origin a =>
              cases h
              exact effect_of_origin hat hnucleus
          | _ =>
              apply effect_of_emitted hat hnucleus
              · simp only [Statement.origin?, hnucleus]
              · exact located_eq_ok_iff.mp h

theorem payload_reaches_iff {q : Site} {i : Instruction}
    (h : q.statement.nucleus? = some (.instruction i)) :
    i.operand.payload.Reaches q.known q.start <->
      forall kind l target, q.statement.reference? = some (kind, l) ->
        q.known l.name = some target -> kind.Reaches target q.start := by
  simp only [Statement.reference?, h, Operand.reference?_eq]
  cases i.operand.payload with
  | literal bs =>
      simp [Payload.Reaches]
  | reference kind l =>
      constructor
      · intro hreach kind' l' target hsome htarget
        cases hsome
        exact hreach target htarget
      · intro hreach target htarget
        exact hreach kind l target rfl htarget

theorem exists_nucleus_iff {u : State} {q : Site} {line token : Nat} (hat : At u q) :
    (exists t, u.nucleus line token q.statement.nucleus? = .ok t) <->
      (forall kind l target, q.statement.reference? = some (kind, l) ->
        q.known l.name = some target -> kind.Reaches target q.start) ∧
      q.start + q.statement.size ≤ 65536 := by
  have hle := u.counter_le
  rw [hat.counter] at hle
  cases hnucleus : q.statement.nucleus? with
  | none =>
      simp [nucleus, Statement.reference?, Statement.size, hnucleus, hle]
  | some n =>
      cases n with
      | instruction i =>
          rw [<- payload_reaches_iff hnucleus, <- hat.table, <- hat.counter]
          simp only [Statement.size, hnucleus]
          exact exists_instruction_iff
      | directive d =>
          have hemits : (exists t, u.emitAll d.emitted = .ok t) <->
              q.start + d.size ≤ 65536 := by
            rw [<- hat.counter, <- d.length_emitted]
            exact exists_emitAll_iff
          cases d with
          | origin a =>
              simpa [nucleus, Statement.reference?, Statement.size, hnucleus,
                Directive.size] using hle
          | _ =>
              simpa [nucleus, Statement.reference?, Statement.size, hnucleus,
                located_eq_ok_iff] using hemits

/-!
The two halves meet at a state that stands at the site.  So a step goes through exactly at
an admissible site, and its effect is that of the site.
-/

theorem at_of_label {s u : State} {st : Statement} (h : s.label st = .ok u) :
    At u ⟨s.cursor, st⟩ := by
  have hcursor := (labels_of_label h).cursor
  constructor
  · exact congrArg Cursor.address hcursor
  · rw [hcursor]
    rfl

theorem exists_step_iff (s : State) (st : Statement) :
    (exists t, s.step st = .ok t) <-> Site.Admissible ⟨s.cursor, st⟩ := by
  constructor
  · intro h
    rcases h with ⟨t, ht⟩
    rcases step_eq_ok_iff.mp ht with ⟨u, hu, hrest⟩
    rcases (exists_nucleus_iff (at_of_label hu)).mp ⟨t, hrest⟩ with ⟨hreach, hfits⟩
    exact ⟨hfits, exists_label_iff.mp ⟨u, hu⟩, hreach⟩
  · intro h
    rcases exists_label_iff.mpr h.fresh with ⟨u, hu⟩
    rcases (exists_nucleus_iff (at_of_label hu)).mpr ⟨h.reaches, h.fits⟩ with ⟨t, ht⟩
    exact ⟨t, step_eq_ok_iff.mpr ⟨u, hu, ht⟩⟩

theorem effect_of_step {s t : State} {st : Statement} (h : s.step st = .ok t) :
    Effect s t ⟨s.cursor, st⟩ := by
  rcases step_eq_ok_iff.mp h with ⟨u, hu, hrest⟩
  have hlabels := labels_of_label hu
  have heffect := effect_of_nucleus (at_of_label hu) hrest
  constructor
  · exact fun hwraps => heffect.wraps (hlabels.wraps hwraps)
  · exact heffect.cursor
  · rw [heffect.image, hlabels.image]
  · rw [heffect.pending, hlabels.pending]

end State
end Asm65
