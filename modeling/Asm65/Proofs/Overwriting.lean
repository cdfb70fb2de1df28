import Asm65.Proofs.Meaning

/-!
# Late operands and later writes

An assembler in two passes would find all labels first and then write the statements in
their order, each over what is there.  The single pass leaves the same image, except where
an operand that waits for its label is overwritten by a later statement: the operand is
filled in at the end and takes the place of what was written over it.
-/

namespace Asm65

/-!
# What a site covers
-/

namespace Site

/-- The statement puts a byte at the address. -/
def Covers (a : Nat) (q : Site) : Prop :=
  q.start ≤ a ∧ a < q.start + q.statement.size

/-- The address is one of an operand that waits for its label. -/
def Awaits (a : Nat) (q : Site) : Prop :=
  q.deferred?.isSome ∧ q.start < a ∧ q.Covers a

instance (a : Nat) (q : Site) : Decidable (q.Covers a) :=
  inferInstanceAs (Decidable (_ ∧ _))

instance (a : Nat) (q : Site) : Decidable (q.Awaits a) :=
  inferInstanceAs (Decidable (_ ∧ _))

theorem byte?_write_eq_none_iff {q : Site} {table : String -> Option Nat} {a : Nat} :
    (q.write table).byte? a = none <-> ¬ q.Covers a := by
  have hlength : (q.code table).length = q.statement.size :=
    q.statement.code_length table q.start
  rw [Write.byte?_eq_none_iff, write, hlength, Covers, not_and_or, Nat.not_le, Nat.not_lt]

theorem covers_of_byte? {q : Site} {table : String -> Option Nat} {a : Nat} {b : UInt8}
    (h : (q.write table).byte? a = some b) : q.Covers a := by
  by_contra hmiss
  rw [byte?_write_eq_none_iff.mpr hmiss] at h
  cases h

/-- A late operand is filled in as the statement has it. -/
theorem byte?_of_patch {q : Site} {table : String -> Option Nat} {w : Write} {a : Nat}
    {b : UInt8} (hpatch : q.patch? table = some w) (hbyte : w.byte? a = some b) :
    q.Awaits a ∧ (q.write table).byte? a = some b := by
  rcases Option.map_eq_some_iff.mp hpatch with ⟨⟨kind, l⟩, hdeferred, rfl⟩
  rcases code_of_reference (deferred?_eq_some_iff.mp hdeferred).left with ⟨opcode, hcode⟩
  have hinside : ¬ a < q.start + 1 := by
    intro hlt
    rw [Write.byte?_eq_none_iff.mpr (Or.inl hlt)] at hbyte
    cases hbyte
  have hstart : q.start < a := Nat.le_of_not_lt hinside
  rw [hcode, List.tail_cons] at hbyte
  have hwrite : (q.write table).byte? a = some b := by
    rw [write, hcode, Write.byte?_cons, if_neg (Nat.ne_of_gt hstart)]
    exact hbyte
  refine ⟨⟨?_, hstart, covers_of_byte? hwrite⟩, hwrite⟩
  rw [hdeferred]
  rfl

end Site

/-!
# Two passes
-/

namespace Layout

/-- The image of two passes: the labels of the whole program first, then the statements. -/
def twoPass (sts : List Statement) : Image :=
  (sites sts).foldl (Site.put (table sts)) #[]

/-- No statement is written over an operand that waits at the address. -/
def Undisturbed (a : Nat) (qs : List Site) : Prop :=
  qs.Pairwise fun q r => ¬ (q.Awaits a ∧ r.Covers a)

instance (a : Nat) (qs : List Site) : Decidable (Undisturbed a qs) :=
  inferInstanceAs (Decidable (qs.Pairwise _))

theorem size_twoPass (sts : List Statement) : (twoPass sts).size = extent (sites sts) := by
  have hsize := size_foldl_put (fun _ => table sts) (sites sts) #[]
  rw [Array.size_empty, Nat.zero_max] at hsize
  exact hsize

theorem byte_twoPass (sts : List Statement) (a : Nat) :
    (twoPass sts).byte a =
      (Write.last? ((sites sts).map (Site.write (table sts))) a).getD 0 :=
  byte_foldl_put (fun _ => table sts) (sites sts) #[] a

theorem last?_writes_eq_none {qs : List Site} {a : Nat} (table : String -> Option Nat)
    (h : forall q, q ∈ qs -> ¬ q.Covers a) :
    Write.last? (qs.map (Site.write table)) a = none := by
  rw [Write.last?_eq_none_iff]
  intro w hw
  rcases List.mem_map.mp hw with ⟨q, hq, rfl⟩
  exact Site.byte?_write_eq_none_iff.mpr (h q hq)

theorem last?_patches_eq_none {qs : List Site} {a : Nat} (table : String -> Option Nat)
    (h : forall q, q ∈ qs -> ¬ q.Covers a) :
    Write.last? (qs.filterMap (Site.patch? table)) a = none := by
  rw [Write.last?_eq_none_iff]
  intro w hw
  rcases List.mem_filterMap.mp hw with ⟨q, hq, hpatch⟩
  by_contra hbyte
  rcases Option.ne_none_iff_exists'.mp hbyte with ⟨b, hb⟩
  exact h q hq (Site.byte?_of_patch hpatch hb).left.right.right

/-- Where nothing is written over them, late operands are what the statements have there. -/
theorem last?_of_undisturbed {qs : List Site} {a : Nat} (table : String -> Option Nat)
    (h : Undisturbed a qs) :
    (Write.last? (qs.filterMap (Site.patch? table)) a).or
        (Write.last? (qs.map (Site.write table)) a) =
      Write.last? (qs.map (Site.write table)) a := by
  induction qs with
  | nil =>
      rfl
  | cons q qs ih =>
      rcases List.pairwise_cons.mp h with ⟨hlater, hothers⟩
      have hrest := ih hothers
      rw [List.map_cons, Write.last?_cons, List.filterMap_cons]
      cases hpatch : q.patch? table with
      | none =>
          simp only
          rw [<- Option.or_assoc, hrest]
      | some w =>
          simp only
          rw [Write.last?_cons]
          cases hbyte : w.byte? a with
          | none =>
              rw [Option.or_none, <- Option.or_assoc, hrest]
          | some b =>
              -- the operand is the last to cover the address, early or late
              rcases Site.byte?_of_patch hpatch hbyte with ⟨hawaits, hwrite⟩
              have hmiss := last?_writes_eq_none table fun r hr hcovers =>
                hlater r hr ⟨hawaits, hcovers⟩
              rw [hmiss, Option.or_none] at hrest
              rw [hmiss, hrest, hwrite]
              rfl

end Layout

theorem Program.image_agrees_with_twoPass {ls : List TokenLine} {program : Program}
    (h : ofLines ls = .ok program) :
    exists sts, Statement.Reads ls sts ∧
      program.image.size = (Layout.twoPass sts).size ∧
      (forall a, Layout.Undisturbed a (Layout.sites sts) ->
        program.image.byte a = (Layout.twoPass sts).byte a) ∧
      ((forall a, Layout.Undisturbed a (Layout.sites sts)) ->
        program.image = Layout.twoPass sts) := by
  rcases ofLines_eq_ok_iff.mp h with ⟨sts, s, hreads, hsteps, hfinish⟩
  have hsize : program.image.size = (Layout.twoPass sts).size := by
    rw [State.size_of_finish hsteps hfinish, Layout.size_twoPass]
  have hbyte : forall a, Layout.Undisturbed a (Layout.sites sts) ->
      program.image.byte a = (Layout.twoPass sts).byte a := by
    intro a hundisturbed
    rw [State.byte_of_finish hsteps hfinish, (State.symbols_of_steps hsteps).left,
      Layout.byte_twoPass, Layout.byteAt, Layout.last?_of_undisturbed _ hundisturbed]
  refine ⟨sts, hreads, hsize, hbyte, ?_⟩
  intro hall
  exact Image.ext_byte hsize fun a => hbyte a (hall a)

/-- The jump and the branch of the overwritten jump, as statements. -/
def State.overwrittenJumpStatements : List Statement :=
  [⟨1, none, some (.instruction ⟨.jmp, .absolute (.label ⟨"FWD", 2⟩), 0x4C, rfl⟩)⟩,
    ⟨2, none, some (.directive (.origin 2))⟩,
    ⟨3, none, some (.directive (.bytes [9]))⟩,
    ⟨4, some ⟨"FWD", 1⟩, some (.instruction ⟨.bne, .relative (.label ⟨"FWD", 4⟩), 0xD0, rfl⟩)⟩]

theorem State.reads_overwrittenJump :
    Statement.Reads overwrittenJump overwrittenJumpStatements :=
  .cons rfl (.cons rfl (.cons rfl (.cons rfl .nil)))

/-- The byte at address `2` was written last, but the operand of the jump replaces it. -/
theorem Program.overwrittenJump_differs_from_twoPass :
    Statement.Reads State.overwrittenJump State.overwrittenJumpStatements ∧
      (ofLines State.overwrittenJump).map Program.image = .ok #[0x4C, 3, 0, 0xD0, 0xFE] ∧
      Layout.twoPass State.overwrittenJumpStatements = #[0x4C, 3, 9, 0xD0, 0xFE] :=
  ⟨State.reads_overwrittenJump, rfl, rfl⟩

/-- Nothing is written over the first operand byte of the jump. -/
theorem Program.overwrittenJump_agrees_with_twoPass :
    ofLines State.overwrittenJump = .ok ⟨#[0x4C, 3, 0, 0xD0, 0xFE], ⟨[("FWD", 3)], #[]⟩⟩ ∧
      Layout.Undisturbed 1 (Layout.sites State.overwrittenJumpStatements) ∧
      exists sts, Statement.Reads State.overwrittenJump sts ∧
        (forall a, Layout.Undisturbed a (Layout.sites sts) ->
          Image.byte #[0x4C, 3, 0, 0xD0, 0xFE] a = (Layout.twoPass sts).byte a) := by
  have hlines : ofLines State.overwrittenJump =
      .ok ⟨#[0x4C, 3, 0, 0xD0, 0xFE], ⟨[("FWD", 3)], #[]⟩⟩ := rfl
  rcases image_agrees_with_twoPass hlines with ⟨sts, hreads, _, hbytes, _⟩
  exact ⟨hlines, by decide, sts, hreads, hbytes⟩

end Asm65
