import Asm65.Text.Hex
import Asm65.Token.Error

/-!
# Numerals

A numeral is binary after `%`, hexadecimal after `$`, octal after a leading `0` that other
characters follow, and decimal otherwise.  Its digits are read from the left, and the first
digit that is not one of the radix, or that takes the value past sixteen bits, decides the
failure.
-/

namespace Asm65

inductive Radix
  | binary | octal | decimal | hex
  deriving DecidableEq

namespace Radix

def base : Radix -> Nat
  | .binary => 2
  | .octal => 8
  | .decimal => 10
  | .hex => 16

def digit? (radix : Radix) (c : Char) : Option Nat :=
  (Hex.value? c).filter (· < radix.base)

/-- What a digit outside the radix is reported as. -/
def invalid : Radix -> LexError.Kind
  | .binary => .invalidBinary
  | .octal => .invalidOctal
  | .decimal => .invalidDecimal
  | .hex => .invalidHex

end Radix

namespace Numeral

/-- The radix of a numeral, and its digits without the mark of the radix. -/
def split : List Char -> Radix × List Char
  | '%' :: digits => (.binary, digits)
  | '$' :: digits => (.hex, digits)
  | '0' :: c :: digits => (.octal, c :: digits)
  | digits => (.decimal, digits)

/-- Reads digits after those that already denote `value`. -/
def readFrom (radix : Radix) (value : Nat) : List Char -> Except LexError.Kind Nat
  | [] => .ok value
  | c :: cs =>
      match radix.digit? c with
      | none => .error radix.invalid
      | some d =>
          let value := value * radix.base + d
          if value ≤ 65535 then readFrom radix value cs else .error .tooLarge

def read (lexeme : List Char) : Except LexError.Kind UInt16 :=
  match split lexeme with
  | (_, []) => .error .noDigits
  | (radix, digits) => (readFrom radix 0 digits).map Nat.toUInt16

end Numeral
end Asm65
