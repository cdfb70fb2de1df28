import Asm65.Proofs.Writing

/-!
# Working off the queue

A queued reference is resolved against the labels of the whole program.  Whether that is
possible does not depend on the image, and the length of the image stays as it is.  So the
queue as a whole is a history of writes, in its own order, over the image of the scan.
-/

namespace Asm65
namespace Fixup

/-- A queued reference whose label is defined and within reach. -/
def Resolvable (table : String -> Option Nat) (f : Fixup) : Prop :=
  exists target, table f.label.name = some target ∧
    f.kind.Reaches target (f.offset - 1).toNat

/-- A queued reference, as a write to memory. -/
def write (table : String -> Option Nat) (f : Fixup) : Write :=
  ⟨f.offset.toNat, (Payload.reference f.kind f.label).bytes table (f.offset - 1).toNat⟩

theorem write_length (table : String -> Option Nat) (f : Fixup) :
    (f.write table).bytes.length = f.kind.width :=
  Payload.reference_bytes_length f.kind f.label table _

theorem patch_eq_ok_iff {t : Symbols} {image image' : Image} {f : Fixup} :
    f.patch t image = .ok image' <->
      f.Resolvable t.table ∧
        image' = image.overwrite f.offset.toNat (f.write t.table).bytes := by
  simp only [patch, Resolvable, write, Payload.bytes, Symbols.table]
  cases haddress : t.address? f.label.name with
  | none =>
      simp
  | some target =>
      simp only [map_eq_ok_iff, located_eq_ok_iff, RefKind.encode_eq_ok_iff, Option.map_some,
        Option.some.injEq, exists_eq_left']
      constructor
      · intro h
        rcases h with ⟨bytes, ⟨hreach, rfl⟩, rfl⟩
        exact ⟨hreach, rfl⟩
      · intro h
        exact ⟨_, ⟨h.left, rfl⟩, h.right.symm⟩

/-!
# The whole queue
-/

def patchAll (t : Symbols) (image : Image) (fs : List Fixup) : Except StatementError Image :=
  fs.foldlM (patch t) image

theorem exists_patchAll_iff (t : Symbols) (image : Image) (fs : List Fixup) :
    (exists image', patchAll t image fs = .ok image') <->
      forall f, f ∈ fs -> f.Resolvable t.table := by
  induction fs generalizing image with
  | nil =>
      constructor
      · intro _ f hf
        cases hf
      · intro _
        exact ⟨image, foldlM_nil_eq_ok_iff.mpr rfl⟩
  | cons f fs ih =>
      rw [List.forall_mem_cons]
      constructor
      · intro h
        rcases h with ⟨image', hall⟩
        rcases foldlM_cons_eq_ok_iff.mp hall with ⟨middle, hfirst, hrest⟩
        exact ⟨(patch_eq_ok_iff.mp hfirst).left, (ih middle).mp ⟨image', hrest⟩⟩
      · intro h
        rcases (ih _).mpr h.right with ⟨image', hrest⟩
        exact ⟨image', foldlM_cons_eq_ok_iff.mpr
          ⟨_, patch_eq_ok_iff.mpr ⟨h.left, rfl⟩, hrest⟩⟩

theorem size_of_patchAll {t : Symbols} {image image' : Image} {fs : List Fixup}
    (h : patchAll t image fs = .ok image') : image'.size = image.size := by
  induction fs generalizing image with
  | nil =>
      have heq : image = image' := foldlM_nil_eq_ok_iff.mp h
      rw [heq]
  | cons f fs ih =>
      rcases foldlM_cons_eq_ok_iff.mp h with ⟨middle, hfirst, hrest⟩
      rw [ih hrest, (patch_eq_ok_iff.mp hfirst).right, Image.size_overwrite]

theorem byte_of_patchAll {t : Symbols} {image image' : Image} {fs : List Fixup}
    (hin : forall f, f ∈ fs -> f.offset.toNat + f.kind.width ≤ image.size)
    (h : patchAll t image fs = .ok image') (a : Nat) :
    image'.byte a = (Write.last? (fs.map (write t.table)) a).getD (image.byte a) := by
  induction fs generalizing image with
  | nil =>
      have heq : image = image' := foldlM_nil_eq_ok_iff.mp h
      rw [heq]
      rfl
  | cons f fs ih =>
      rcases foldlM_cons_eq_ok_iff.mp h with ⟨middle, hfirst, hrest⟩
      have hmiddle := (patch_eq_ok_iff.mp hfirst).right
      rw [List.forall_mem_cons] at hin
      have hfits : f.offset.toNat + (f.write t.table).bytes.length ≤ image.size := by
        rw [write_length]
        exact hin.left
      have hbyte : middle.byte a = ((f.write t.table).byte? a).getD (image.byte a) := by
        rw [hmiddle]
        exact image.byte_overwrite f.offset.toNat a _ hfits
      have hothers : forall g, g ∈ fs -> g.offset.toNat + g.kind.width ≤ middle.size := by
        rw [hmiddle, Image.size_overwrite]
        exact hin.right
      rw [ih hothers hrest, hbyte, List.map_cons, Write.last?_cons, Option.getD_or]

end Fixup

namespace State

theorem finish_eq_ok_iff {s : State} {program : Program} :
    s.finish = .ok program <->
      exists image, Fixup.patchAll s.symbols s.image s.symbols.pending.toList = .ok image ∧
        program = ⟨image, { s.symbols with pending := #[] }⟩ := by
  unfold finish
  rw [bind_eq_ok_iff]
  constructor
  · intro h
    rcases h with ⟨image, himage, hprogram⟩
    cases hprogram
    exact ⟨image, himage, rfl⟩
  · intro h
    rcases h with ⟨image, himage, rfl⟩
    exact ⟨image, himage, rfl⟩

end State
end Asm65
