/-!
# Decimal numbers

Numbers are written without leading zeros.  A number that is read as an option is made of
decimal digits, at least one of them, after an optional plus sign.
-/

namespace Asm65
namespace Text

def decimal (n : Nat) : List Char :=
  Nat.toDigits 10 n

/-- The value of decimal digits read after those that already denote `value`. -/
def digitsFrom? (value : Nat) : List Char -> Option Nat
  | [] => some value
  | c :: cs => if c.isDigit then digitsFrom? (10 * value + (c.toNat - '0'.toNat)) cs else none

def natChars? : List Char -> Option Nat
  | [] => none
  | '+' :: [] => none
  | '+' :: cs => digitsFrom? 0 cs
  | cs => digitsFrom? 0 cs

/-- The unsigned number of sixty-four bits that a text denotes. -/
def nat64? (s : String) : Option Nat :=
  (natChars? s.toList).filter (· < 0x10000000000000000)

end Text
end Asm65
