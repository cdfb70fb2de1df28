import Asm65.Reference

/-!
# The bytes of a reference

The operand of a reference says where its label is: as an address, the low byte first, or
as a signed distance from the end of a two-byte branch.  Addresses are plain numbers here,
so a distance is a difference of integers that does not wrap around.
-/

namespace Asm65

/-- The bytes of a word, as numbers. -/
theorem wordBytes_value (w : UInt16) :
    exists low high : UInt8,
      wordBytes w = [low, high] ∧ low.toNat + 256 * high.toNat = w.toNat := by
  exists w.toUInt8
  exists (w >>> 8).toUInt8
  constructor
  · rfl
  · have hlt := w.toNat_lt
    have hshift : (w >>> 8).toNat = w.toNat / 256 := by
      rw [UInt16.toNat_shiftRight]
      exact Nat.shiftRight_eq_div_pow w.toNat 8
    rw [UInt16.toNat_toUInt8, UInt16.toNat_toUInt8, hshift]
    omega

/-- Two bytes that make up a number, the low one first. -/
def LittleEndian (n : Nat) (bytes : List UInt8) : Prop :=
  exists low high : UInt8, bytes = [low, high] ∧ low.toNat + 256 * high.toNat = n

theorem LittleEndian.unique {n : Nat} {bytes bytes' : List UInt8} (h : LittleEndian n bytes)
    (h' : LittleEndian n bytes') : bytes = bytes' := by
  rcases h with ⟨low, high, rfl, hvalue⟩
  rcases h' with ⟨low', high', rfl, hvalue'⟩
  have hlt := low.toNat_lt
  have hlt' := low'.toNat_lt
  have hlow : low = low' := UInt8.toNat_inj.mp (by omega)
  have hhigh : high = high' := UInt8.toNat_inj.mp (by omega)
  rw [hlow, hhigh]

theorem littleEndian_iff {w : UInt16} {bytes : List UInt8} :
    LittleEndian w.toNat bytes <-> wordBytes w = bytes := by
  have hword : LittleEndian w.toNat (wordBytes w) := wordBytes_value w
  constructor
  · intro h
    exact hword.unique h
  · rintro rfl
    exact hword

/-- A distance that fits in a signed byte is what the byte stands for. -/
theorem toInt_toInt8_ofInt {d : Int} (hlow : -128 ≤ d) (hhigh : d ≤ 127) :
    (UInt8.ofInt d).toInt8.toInt = d := by
  have hcast : (UInt8.ofInt d).toInt8 = Int8.ofNat (d % 2 ^ 8).toNat := UInt8.toInt8_ofNat'
  have hmod : ((d % 2 ^ 8).toNat : Int) = d % 2 ^ 8 := Int.toNat_of_nonneg (by omega)
  rw [hcast, Int8.toInt_ofNat', hmod, Int.bmod_def]
  simp only [Int8.size]
  omega

namespace RefKind

/-- How many operand bytes a reference takes. -/
def width : RefKind -> Nat
  | .absolute => 2
  | .relative => 1

/-- The distance from the end of the two-byte branch at `start` to `target`. -/
def distance (target start : Nat) : Int :=
  (target : Int) - ((start : Int) + 2)

/-- Whether a reference in the instruction at `start` can reach `target`. -/
def Reaches (target start : Nat) : RefKind -> Prop
  | .absolute => True
  | .relative => -128 ≤ distance target start ∧ distance target start ≤ 127

/-- The operand bytes of a reference to `target` in the instruction at `start`. -/
def bytes (target start : Nat) : RefKind -> List UInt8
  | .absolute => wordBytes (UInt16.ofNat target)
  | .relative => [UInt8.ofInt (distance target start)]

/-- What operand bytes say: an address in two bytes, or a signed distance in one. -/
def Denotes (target start : Nat) : RefKind -> List UInt8 -> Prop
  | .absolute, operand =>
      exists low high : UInt8, operand = [low, high] ∧ low.toNat + 256 * high.toNat = target
  | .relative, operand =>
      exists d : UInt8, operand = [d] ∧ (start : Int) + 2 + d.toInt8.toInt = (target : Int)

/-- The place of an instruction and of its label leave no choice for the operand. -/
theorem Denotes.unique {kind : RefKind} {target start : Nat} {bytes bytes' : List UInt8}
    (h : kind.Denotes target start bytes) (h' : kind.Denotes target start bytes') :
    bytes = bytes' := by
  cases kind with
  | absolute => exact LittleEndian.unique h h'
  | relative =>
      rcases h with ⟨d, rfl, hdistance⟩
      rcases h' with ⟨d', rfl, hdistance'⟩
      have hsigned : d.toInt8 = d'.toInt8 := Int8.toInt_inj.mp (by omega)
      have hsame : d = d' := by
        rw [<- UInt8.toUInt8_toInt8 d, hsigned, UInt8.toUInt8_toInt8]
      rw [hsame]

@[simp]
theorem placeholder_length (kind : RefKind) : kind.placeholder.length = kind.width := by
  cases kind <;> rfl

@[simp]
theorem bytes_length (kind : RefKind) (target start : Nat) :
    (kind.bytes target start).length = kind.width := by
  cases kind <;> rfl

theorem denotes_bytes {kind : RefKind} {target start : Nat} (htarget : target < 65536)
    (hreach : kind.Reaches target start) :
    kind.Denotes target start (kind.bytes target start) := by
  cases kind with
  | absolute =>
      rcases wordBytes_value (UInt16.ofNat target) with ⟨low, high, hbytes, hvalue⟩
      refine ⟨low, high, hbytes, ?_⟩
      rw [hvalue, UInt16.toNat_ofNat_of_lt' htarget]
  | relative =>
      refine ⟨UInt8.ofInt (distance target start), rfl, ?_⟩
      rw [toInt_toInt8_ofInt hreach.left hreach.right]
      unfold distance
      omega

/-- Encoding fails only for a branch to a target out of reach. -/
theorem encode_eq_ok_iff {kind : RefKind} {target origin : UInt16} {operand : List UInt8} :
    kind.encode target origin = .ok operand <->
      kind.Reaches target.toNat origin.toNat ∧
        operand = kind.bytes target.toNat origin.toNat := by
  cases kind with
  | absolute =>
      simp only [encode, Reaches, bytes, UInt16.ofNat_toNat, Except.ok.injEq, true_and]
      exact eq_comm
  | relative =>
      simp only [encode, branchOffset, Reaches, bytes, distance]
      split
      · next hrange =>
          simp only [Except.map, Except.ok.injEq, hrange, and_self, true_and]
          exact eq_comm
      · next hrange =>
          simp only [Except.map, hrange, reduceCtorEq, false_and]

end RefKind
end Asm65
