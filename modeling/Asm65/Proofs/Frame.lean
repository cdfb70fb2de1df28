import Asm65.Proofs.Invariant

/-!
# The frame of a statement

What one statement changes, told in the fields of the state.  It writes a single interval of
memory, from the program counter on, and leaves all other bytes alone.  How long the interval
is can be told from the statement beforehand: the size of an instruction comes from its
addressing mode, but its bytes are those of its operand, and the two agree.

The state has to be one that statements can lead to.  Otherwise the image need not reach up
to the counter, and a statement without bytes would not make it do so.
-/

namespace Asm65

/-- A queued reference that is the operand of the statement at `p`. -/
structure Fixup.IsFor (f : Fixup) (st : Statement) (p : Nat) : Prop where
  reference : st.reference? = some (f.kind, f.label)
  line : f.line = st.line
  offset : f.offset.toNat = p + 1

namespace State

/--
The counter has moved on by `n` bytes, and the image reaches up to it.  Behind the last byte of
memory the counter is zero, and the flag is set.
-/
structure Advances (s t : State) (n : Nat) : Prop where
  fits : s.pc.toNat + n ≤ 65536
  pc : t.pc.toNat = if s.pc.toNat + n = 65536 then 0 else s.pc.toNat + n
  overflowed : t.overflowed = true <-> s.pc.toNat + n = 65536
  size : t.image.size = max s.image.size (s.pc.toNat + n)
  idle : n = 0 -> t.image = s.image

/-- The counter has been set to `a`, and zeros fill the image up to there. -/
structure MovesTo (s t : State) (a : UInt16) : Prop where
  pc : t.pc = a
  overflowed : t.overflowed = false
  size : t.image.size = max s.image.size a.toNat
  zeros : forall i, s.image.size ≤ i -> i < a.toNat -> t.image[i]? = some 0

/-- What is different behind a statement, and that nothing else is. -/
structure Changes (s t : State) (st : Statement) : Prop where
  kept : forall a, a < s.image.size -> a < s.pc.toNat ∨ s.pc.toNat + st.size ≤ a ->
    t.image[a]? = s.image[a]?
  written : forall i, i < st.size ->
    t.image[s.pc.toNat + i]? = (st.code t.symbols.table s.pc.toNat)[i]?
  advances : st.origin? = none -> Advances s t st.size
  moves : forall a, st.origin? = some a -> MovesTo s t a
  fresh : forall l, st.label? = some l -> s.symbols.address? l.name = none
  labels : t.symbols.labels =
    (st.label?.toList.map fun l => (l.name, s.pc)) ++ s.symbols.labels
  queue : exists waiting : Option Fixup,
    t.symbols.pending.toList = s.symbols.pending.toList ++ waiting.toList ∧
    (forall f, waiting = some f -> f.IsFor st s.pc.toNat) ∧
    (waiting.isSome = true <->
      exists kind l, st.reference? = some (kind, l) ∧ t.symbols.address? l.name = none)

/-!
# The counter and its flag
-/

theorem overflowed_iff {s : State} : s.overflowed = true <-> s.counter = 65536 := by
  constructor
  · exact counter_of_overflowed
  · intro hcounter
    cases hover : s.overflowed with
    | true => rfl
    | false =>
        have hlt := counter_lt_iff.mpr hover
        omega

theorem pc_of_counter {s : State} (hwraps : s.Wraps) :
    s.pc.toNat = if s.counter = 65536 then 0 else s.counter := by
  cases hover : s.overflowed with
  | true =>
      rw [if_pos (counter_of_overflowed hover), hwraps hover]
      rfl
  | false =>
      have hlt := counter_lt_iff.mpr hover
      rw [if_neg (by omega), counter_of_not_overflowed hover]

/-!
# From sites to fields

The statement is taken up at the counter of a state that is not overflowed, so its site starts
at the program counter.
-/

section Steps

variable {s t : State} {st : Statement}

theorem start_eq_pc (hin : s.overflowed = false) (st : Statement) :
    (Site.mk s.cursor st).start = s.pc.toNat :=
  counter_of_not_overflowed hin

/-- The labels that the site of a statement knows are those in the table behind it. -/
theorem known_eq_table (h : s.step st = .ok t) :
    (Site.mk s.cursor st).known = t.symbols.table := by
  rw [<- cursor_table, (effect_of_step h).cursor]
  rfl

theorem size_of_step (h : s.step st = .ok t) :
    t.image.size = max s.image.size (Site.mk s.cursor st).reach := by
  rw [(effect_of_step h).image, Site.size_onto]

theorem byte_of_step (hin : s.overflowed = false) (h : s.step st = .ok t) (a : Nat) :
    t.image.byte a =
      (Write.byte? ⟨s.pc.toNat, st.code t.symbols.table s.pc.toNat⟩ a).getD
        (s.image.byte a) := by
  have himage : t.image = (Site.mk s.cursor st).put t.symbols.table s.image := by
    rw [<- known_eq_table h]
    exact (effect_of_step h).image
  have hbyte := Site.byte_put t.symbols.table s.image ⟨s.cursor, st⟩ a
  rw [Site.write, Site.code, start_eq_pc hin] at hbyte
  rw [himage]
  exact hbyte

theorem kept_of_step (hin : s.overflowed = false) (h : s.step st = .ok t) {a : Nat}
    (ha : a < s.image.size) (hout : a < s.pc.toNat ∨ s.pc.toNat + st.size ≤ a) :
    t.image[a]? = s.image[a]? := by
  have hsize := size_of_step h
  have hnone : Write.byte? ⟨s.pc.toNat, st.code t.symbols.table s.pc.toNat⟩ a = none := by
    rw [Write.byte?_eq_none_iff, Statement.code_length]
    exact hout
  rw [Image.getElem?_eq_byte ha, Image.getElem?_eq_byte (by omega), byte_of_step hin h, hnone]
  rfl

/-- The image already reaches up to the counter, so the end of the statement tells its length. -/
theorem size_of_step_of_no_origin (hs : Reachable s) (hin : s.overflowed = false)
    (h : s.step st = .ok t) (horigin : st.origin? = none) :
    t.image.size = max s.image.size (s.pc.toNat + st.size) := by
  have hpc : s.pc.toNat ≤ s.image.size :=
    (invariant_of_covered (covered_of_reachable hs)).pc_le
  rw [size_of_step h, Site.reach]
  simp only [horigin, start_eq_pc hin]
  split
  · omega
  · rfl

theorem written_of_step (hs : Reachable s) (hin : s.overflowed = false) (h : s.step st = .ok t)
    {i : Nat} (hi : i < st.size) :
    t.image[s.pc.toNat + i]? = (st.code t.symbols.table s.pc.toNat)[i]? := by
  have horigin : st.origin? = none := by
    cases horigin : st.origin? with
    | none => rfl
    | some a =>
        rw [Statement.size_of_origin horigin] at hi
        exact (Nat.not_lt_zero i hi).elim
  have hsize := size_of_step_of_no_origin hs hin h horigin
  have hcode : i < (st.code t.symbols.table s.pc.toNat).length := by
    rwa [Statement.code_length]
  rw [Image.getElem?_eq_byte (by omega), byte_of_step hin h, Write.byte?,
    if_pos (Nat.le_add_right _ _), Nat.add_sub_cancel_left, List.getElem?_eq_getElem hcode]
  rfl

theorem advances_of_step (hs : Reachable s) (hin : s.overflowed = false)
    (h : s.step st = .ok t) (horigin : st.origin? = none) : Advances s t st.size := by
  have heffect := effect_of_step h
  have hcounter : t.counter = s.pc.toNat + st.size := by
    have haddress := congrArg Cursor.address heffect.cursor
    simp only [Cursor.next, Statement.after, horigin] at haddress
    rw [<- start_eq_pc hin st]
    exact haddress
  constructor
  · rw [<- hcounter]
    exact t.counter_le
  · rw [<- hcounter]
    exact pc_of_counter (heffect.wraps (covered_of_reachable hs).wraps)
  · rw [<- hcounter]
    exact overflowed_iff
  · exact size_of_step_of_no_origin hs hin h horigin
  · intro hzero
    have hnil : st.code t.symbols.table s.pc.toNat = [] := by
      rw [<- List.length_eq_zero_iff, Statement.code_length, hzero]
    rw [heffect.image, Site.onto, horigin, known_eq_table h, Site.code, start_eq_pc hin, hnil]
    rfl

theorem movesTo_of_step (hin : s.overflowed = false) (h : s.step st = .ok t) {a : UInt16}
    (horigin : st.origin? = some a) : MovesTo s t a := by
  have hcounter : t.counter = a.toNat := by
    have haddress := congrArg Cursor.address (effect_of_step h).cursor
    simp only [Cursor.next, Statement.after, horigin] at haddress
    exact haddress
  have hover : t.overflowed = false := by
    rw [<- counter_lt_iff, hcounter]
    exact a.toNat_lt
  have hsize : t.image.size = max s.image.size a.toNat := by
    rw [size_of_step h]
    simp only [Site.reach, horigin]
  constructor
  · apply UInt16.toNat_inj.mp
    rw [<- counter_of_not_overflowed hover, hcounter]
  · exact hover
  · exact hsize
  · intro i hlow hhigh
    have hpast : s.image[i]? = none := Array.getElem?_eq_none hlow
    rw [Image.getElem?_eq_byte (by omega), byte_of_step hin h, Statement.code_of_origin horigin]
    simp [Write.byte?, Image.byte, hpast]

theorem labels_of_step (hin : s.overflowed = false) (h : s.step st = .ok t) :
    t.symbols.labels =
      (st.label?.toList.map fun l => (l.name, s.pc)) ++ s.symbols.labels := by
  have hlabels := congrArg Cursor.labels (effect_of_step h).cursor
  have hpc : s.cursor.address = s.pc.toNat := counter_of_not_overflowed hin
  have hentries : st.entries s.cursor.address =
      (st.label?.toList.map fun l => (l.name, s.pc)).map fun e => (e.1, e.2.toNat) := by
    rw [List.map_map, Statement.entries, hpc]
    rfl
  rw [Cursor.next, hentries] at hlabels
  apply List.map_injective_iff.mpr toNat_entry_injective
  rw [List.map_append]
  exact hlabels

theorem fresh_of_step (h : s.step st = .ok t) {l : LabelRef} (hl : st.label? = some l) :
    s.symbols.address? l.name = none := by
  have hfresh := (((exists_step_iff s st).mp ⟨t, h⟩).fresh l hl).right
  rwa [cursor_table, Symbols.table, Option.map_eq_none_iff] at hfresh

theorem isFor_of_fixup (hin : s.overflowed = false) (h : s.step st = .ok t) {f : Fixup}
    (hf : (Site.mk s.cursor st).fixup? = some f) : f.IsFor st s.pc.toNat := by
  have hoffset := (((exists_step_iff s st).mp ⟨t, h⟩).offset_of_fixup hf).left
  rw [start_eq_pc hin] at hoffset
  rcases Site.fixup?_eq_some_iff.mp hf with ⟨kind, l, hdeferred, rfl⟩
  exact ⟨(Site.deferred?_eq_some_iff.mp hdeferred).left, rfl, hoffset⟩

/-- A reference is queued exactly if its label is not in the table, its own line included. -/
theorem isSome_fixup_iff (h : s.step st = .ok t) :
    (Site.mk s.cursor st).fixup?.isSome = true <->
      exists kind l, st.reference? = some (kind, l) ∧ t.symbols.address? l.name = none := by
  have hknown : forall name, (Site.mk s.cursor st).known name = none <->
      t.symbols.address? name = none := by
    intro name
    rw [known_eq_table h, Symbols.table, Option.map_eq_none_iff]
  rw [Site.fixup?, Option.isSome_map, Option.isSome_iff_exists, Prod.exists]
  simp only [Site.deferred?_eq_some_iff, hknown]

/--
A statement that is taken up changes the bytes of one interval, whose length is its size, and
moves the counter to the end of the interval.  An origin sets the counter instead.  The table
gains the label of the statement, and the queue its operand if the label of that is unknown.
-/
theorem step_changes_one_interval (hs : Reachable s) (hin : s.overflowed = false)
    (h : s.step st = .ok t) : Changes s t st := by
  constructor
  · exact fun a ha hout => kept_of_step hin h ha hout
  · exact fun i hi => written_of_step hs hin h hi
  · exact fun horigin => advances_of_step hs hin h horigin
  · exact fun a horigin => movesTo_of_step hin h horigin
  · exact fun l hl => fresh_of_step h hl
  · exact labels_of_step hin h
  · exact ⟨_, (effect_of_step h).pending, fun f hf => isFor_of_fixup hin h hf,
      isSome_fixup_iff h⟩

end Steps

/-- A branch that fills the last two bytes of memory, with a label of its own. -/
def lastBranch : Statement :=
  ⟨2, some ⟨"END", 1⟩,
    some (.instruction ⟨.beq, .relative (.label ⟨"FWD", 4⟩), 0xF0, rfl⟩)⟩

/-- The end of memory, with the counter two bytes before it. -/
def beforeLastBranch (image : Image) : State :=
  ⟨0xFFFE, false, image, Symbols.empty⟩

/-- Behind the branch the counter has run out, and the operand at `$FFFF` waits. -/
def behindLastBranch (image : Image) : State :=
  ⟨0, true, (image.store 0xFFFE 0xF0).store 0xFFFF 0,
    ⟨[("END", 0xFFFE)], #[⟨⟨"FWD", 4⟩, 2, 0xFFFF, .relative⟩]⟩⟩

theorem lastBranch_changes_one_interval :
    Reachable (beforeLastBranch (Image.growTo #[] 0xFFFE)) ∧
      (beforeLastBranch (Image.growTo #[] 0xFFFE)).step lastBranch =
        .ok (behindLastBranch (Image.growTo #[] 0xFFFE)) ∧
      Changes (beforeLastBranch (Image.growTo #[] 0xFFFE))
        (behindLastBranch (Image.growTo #[] 0xFFFE)) lastBranch := by
  have horigin : start.step ⟨1, none, some (.directive (.origin 0xFFFE))⟩ =
      .ok (beforeLastBranch (Image.growTo #[] 0xFFFE)) := rfl
  -- what the step does is told for any image, so that this one is not computed
  have hstep : forall image, (beforeLastBranch image).step lastBranch =
      .ok (behindLastBranch image) := by
    intro image
    have hopen : List.lookup "FWD" [("END", (0xFFFE : UInt16))] = none := rfl
    simp [beforeLastBranch, behindLastBranch, lastBranch, step, define, nucleus, instruction,
      emit, emitAll, operand, defer, located, Operand.payload, RefKind.placeholder,
      Symbols.empty, Symbols.address?, Symbols.define, Symbols.defer, hopen,
      bind, Except.bind, pure, Except.pure, Except.mapError]
  have hreachable := Reachable.step .start horigin
  exact ⟨hreachable, hstep _, step_changes_one_interval hreachable rfl (hstep _)⟩

end State
end Asm65
