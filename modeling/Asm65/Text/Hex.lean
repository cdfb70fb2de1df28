/-!
# Hexadecimal digits

Bytes and words are written with capital digits and with all their leading zeros: two
digits for a byte, four for a word.
-/

namespace Asm65
namespace Hex

/-- The capital digit of a number below sixteen. -/
def digit (n : Nat) : Char :=
  Char.ofNat (if n < 10 then '0'.toNat + n else 'A'.toNat + (n - 10))

/-- The number that a digit `0` to `9` or `A` to `F` stands for. -/
def value? (c : Char) : Option Nat :=
  if '0' ≤ c ∧ c ≤ '9' then some (c.toNat - '0'.toNat)
  else if 'A' ≤ c ∧ c ≤ 'F' then some (c.toNat - 'A'.toNat + 10)
  else none

def isDigit (c : Char) : Bool :=
  (value? c).isSome

def byte (b : UInt8) : List Char :=
  [digit (b.toNat / 16), digit (b.toNat % 16)]

def word (w : UInt16) : List Char :=
  [ digit (w.toNat / 4096), digit (w.toNat / 256 % 16),
    digit (w.toNat / 16 % 16), digit (w.toNat % 16) ]

/-- A byte as it is written in source text and in messages. -/
def byteText (b : UInt8) : String :=
  String.ofList ('$' :: byte b)

/-- A word as it is written in source text and in messages. -/
def wordText (w : UInt16) : String :=
  String.ofList ('$' :: word w)

end Hex
end Asm65
