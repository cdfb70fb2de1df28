import Asm65.Image

/-!
# Images as memory

An image is read here as a length and a byte for every address, where the bytes past the
end are zero.  Each way of changing an image is then described twice: by the length it
leads to, and by the byte it leaves at any address.

A sequence of writes is kept as a list, the earliest first.  What it leaves at an address
is the byte of the last write that covers the address.
-/

namespace Asm65
namespace Image

/-- The byte at an address; past the end there are zeros. -/
def byte (image : Image) (a : Nat) : UInt8 :=
  image[a]?.getD 0

theorem getElem_eq_byte (image : Image) (a : Nat) (h : a < image.size) :
    image[a] = image.byte a := by
  simp [byte, h]

theorem getElem?_eq_byte {image : Image} {a : Nat} (h : a < image.size) :
    image[a]? = some (image.byte a) := by
  rw [Array.getElem?_eq_getElem h, getElem_eq_byte]

theorem ext_byte {image image' : Image} (hsize : image.size = image'.size)
    (hbyte : forall a, image.byte a = image'.byte a) : image = image' := by
  apply Array.ext hsize
  intro a ha ha'
  rw [getElem_eq_byte, getElem_eq_byte]
  exact hbyte a

/-!
## Growing
-/

@[simp]
theorem size_growTo (image : Image) (n : Nat) :
    (image.growTo n).size = max image.size n := by
  simp only [growTo, Array.size_append, Array.size_replicate]
  omega

@[simp]
theorem byte_growTo (image : Image) (n a : Nat) :
    (image.growTo n).byte a = image.byte a := by
  unfold byte growTo
  by_cases ha : a < image.size
  · rw [Array.getElem?_append_left ha]
  · rw [Array.getElem?_append_right (by omega), Array.getElem?_replicate]
    have hnone : image[a]? = none := Array.getElem?_eq_none (by omega)
    rw [hnone]
    split <;> rfl

/-!
## Storing
-/

@[simp]
theorem size_store (image : Image) (a : Nat) (b : UInt8) :
    (image.store a b).size = max image.size (a + 1) := by
  unfold store
  split
  · rw [Array.size_setIfInBounds]
    omega
  · rw [Array.size_push, size_growTo]
    omega

theorem byte_setIfInBounds (image : Image) (a i : Nat) (b : UInt8) (ha : a < image.size) :
    byte (image.setIfInBounds a b) i = if i = a then b else image.byte i := by
  unfold byte
  rw [Array.getElem?_setIfInBounds]
  by_cases hi : a = i
  · subst hi
    simp [ha]
  · rw [if_neg hi, if_neg (fun h => hi h.symm)]

theorem byte_store (image : Image) (a i : Nat) (b : UInt8) :
    (image.store a b).byte i = if i = a then b else image.byte i := by
  unfold store
  by_cases ha : a < image.size
  · rw [if_pos ha]
    exact byte_setIfInBounds image a i b ha
  · have hsize : (image.growTo a).size = a := by
      rw [size_growTo]
      omega
    rw [if_neg ha, byte, Array.getElem?_push, hsize]
    by_cases hi : i = a
    · rw [if_pos hi, if_pos hi]
      rfl
    · rw [if_neg hi, if_neg hi]
      exact byte_growTo image a i

/-- Stores bytes one after the other, from an address on. -/
def storeAll (image : Image) (a : Nat) : List UInt8 -> Image
  | [] => image
  | b :: bs => storeAll (image.store a b) (a + 1) bs

/-- Storing nothing does not reach anywhere, not even to the address it starts from. -/
theorem size_storeAll (image : Image) (a : Nat) (bs : List UInt8) :
    (image.storeAll a bs).size =
      if bs = [] then image.size else max image.size (a + bs.length) := by
  induction bs generalizing image a with
  | nil =>
      rfl
  | cons b bs ih =>
      rw [storeAll, ih, size_store, if_neg (List.cons_ne_nil b bs)]
      split
      · next hnil =>
          subst hnil
          rfl
      · rw [List.length_cons]
        omega

theorem storeAll_append (image : Image) (a : Nat) (bs cs : List UInt8) :
    image.storeAll a (bs ++ cs) = (image.storeAll a bs).storeAll (a + bs.length) cs := by
  induction bs generalizing image a with
  | nil =>
      rfl
  | cons b bs ih =>
      rw [List.cons_append, storeAll, ih, storeAll, List.length_cons,
        Nat.add_right_comm, Nat.add_assoc]

end Image

/-!
## Histories of writes
-/

/-- Bytes that are put into memory from an address on. -/
structure Write where
  address : Nat
  bytes : List UInt8
  deriving DecidableEq

namespace Write

/-- The byte that a write puts at an address, if the write covers it. -/
def byte? (w : Write) (a : Nat) : Option UInt8 :=
  if w.address ≤ a then w.bytes[a - w.address]? else none

/-- The byte that the last of the writes to cover an address puts there. -/
def last? (ws : List Write) (a : Nat) : Option UInt8 :=
  ws.reverse.findSome? fun w => w.byte? a

theorem last?_cons (w : Write) (ws : List Write) (a : Nat) :
    last? (w :: ws) a = (last? ws a).or (w.byte? a) := by
  unfold last?
  rw [List.reverse_cons, List.findSome?_append]
  simp

theorem last?_eq_none_iff {ws : List Write} {a : Nat} :
    last? ws a = none <-> forall w, w ∈ ws -> w.byte? a = none := by
  unfold last?
  rw [List.findSome?_eq_none_iff]
  constructor
  · intro h w hw
    exact h w (List.mem_reverse.mpr hw)
  · intro h w hw
    exact h w (List.mem_reverse.mp hw)

theorem exists_of_last? {ws : List Write} {a : Nat} {b : UInt8} (h : last? ws a = some b) :
    exists w, w ∈ ws ∧ w.byte? a = some b := by
  rcases List.exists_of_findSome?_eq_some h with ⟨w, hw, hbyte⟩
  exact ⟨w, List.mem_reverse.mp hw, hbyte⟩

theorem last?_map_congr {α : Type} {f g : α -> Write} {xs : List α} {a : Nat}
    (h : forall x, x ∈ xs -> (f x).byte? a = (g x).byte? a) :
    last? (xs.map f) a = last? (xs.map g) a := by
  induction xs with
  | nil =>
      rfl
  | cons x xs ih =>
      rw [List.forall_mem_cons] at h
      rw [List.map_cons, List.map_cons, last?_cons, last?_cons, h.left, ih h.right]

theorem byte?_eq_none_iff {w : Write} {a : Nat} :
    w.byte? a = none <-> a < w.address ∨ w.address + w.bytes.length ≤ a := by
  unfold byte?
  split
  · rw [List.getElem?_eq_none_iff]
    omega
  · simp only [true_iff]
    omega

/-- A write of several bytes is a write of the first one, then of the others behind it. -/
theorem byte?_cons (p a : Nat) (b : UInt8) (bs : List UInt8) :
    byte? ⟨p, b :: bs⟩ a = if a = p then some b else byte? ⟨p + 1, bs⟩ a := by
  simp only [byte?]
  by_cases ha : a = p
  · subst ha
    simp
  · rw [if_neg ha]
    by_cases hlt : p ≤ a
    · have hsucc : a - p = (a - (p + 1)) + 1 := by omega
      rw [if_pos hlt, if_pos (by omega), hsucc, List.getElem?_cons_succ]
    · rw [if_neg hlt, if_neg (by omega)]

/-- Putting the first byte before the others or together with them makes no difference. -/
theorem getD_byte?_cons (p a : Nat) (b old : UInt8) (bs : List UInt8) :
    (byte? ⟨p + 1, bs⟩ a).getD (if a = p then b else old) =
      (byte? ⟨p, b :: bs⟩ a).getD old := by
  rw [byte?_cons]
  by_cases ha : a = p
  · have hlater : byte? ⟨p + 1, bs⟩ a = none :=
      byte?_eq_none_iff.mpr (Or.inl (by simp only; omega))
    rw [if_pos ha, if_pos ha, hlater]
    rfl
  · rw [if_neg ha, if_neg ha]

end Write

namespace Image

theorem byte_storeAll (image : Image) (p a : Nat) (bs : List UInt8) :
    (image.storeAll p bs).byte a = (Write.byte? ⟨p, bs⟩ a).getD (image.byte a) := by
  induction bs generalizing image p with
  | nil =>
      simp [storeAll, Write.byte?]
  | cons b bs ih =>
      rw [storeAll, ih, byte_store, Write.getD_byte?_cons]

/-!
## Overwriting

An overwrite never makes an image longer, so it has to stay within the image to leave all
of its bytes there.
-/

@[simp]
theorem size_overwrite (image : Image) (p : Nat) (bs : List UInt8) :
    (image.overwrite p bs).size = image.size := by
  induction bs generalizing image p with
  | nil =>
      rfl
  | cons b bs ih =>
      rw [overwrite, ih, Array.size_setIfInBounds]

theorem byte_overwrite (image : Image) (p a : Nat) (bs : List UInt8)
    (h : p + bs.length ≤ image.size) :
    (image.overwrite p bs).byte a = (Write.byte? ⟨p, bs⟩ a).getD (image.byte a) := by
  induction bs generalizing image p with
  | nil =>
      simp [overwrite, Write.byte?]
  | cons b bs ih =>
      rw [List.length_cons] at h
      have hrest : p + 1 + bs.length ≤ (image.setIfInBounds p b).size := by
        rw [Array.size_setIfInBounds]
        omega
      rw [overwrite, ih _ _ hrest, byte_setIfInBounds image p a b (by omega),
        Write.getD_byte?_cons]

end Image
end Asm65
