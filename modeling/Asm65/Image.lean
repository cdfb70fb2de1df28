/-!
# Memory images

An image holds the bytes of memory from address zero up.  Writing at or past its end makes
it grow, and what lies between is zero.
-/

namespace Asm65

abbrev Image := Array UInt8

namespace Image

/-- Fills the image with zeros up to the given length; a longer image stays as it is. -/
def growTo (image : Image) (length : Nat) : Image :=
  image ++ Array.replicate (length - image.size) 0

def store (image : Image) (address : Nat) (b : UInt8) : Image :=
  if address < image.size then image.setIfInBounds address b
  else (image.growTo address).push b

/-- Replaces the bytes from an address on, within the length of the image. -/
def overwrite (image : Image) (address : Nat) : List UInt8 -> Image
  | [] => image
  | b :: bs => overwrite (image.setIfInBounds address b) (address + 1) bs

/-- The image without the zeros at its start. -/
def cutLeadingZeros (image : Image) : Image :=
  image.extract (image.findIdx (· != 0)) image.size

end Image
end Asm65
