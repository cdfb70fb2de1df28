import Asm65.Diagnostic

/-!
# Errors of the scan

The scan of a line fails at a character that begins no token, or at a number that does not
denote a sixteen-bit value.
-/

namespace Asm65
namespace LexError

inductive Kind
  | tooLarge
  | invalidBinary
  | invalidHex
  | invalidOctal
  | invalidDecimal
  | noDigits
  | unreadableNumber
  | invalidSymbol
  deriving DecidableEq

namespace Kind

def message : Kind -> String
  | .tooLarge => "numeric literal does not fit 16-bit unsigned integer"
  | .invalidBinary => "invalid binary literal"
  | .invalidHex => "invalid hex literal"
  | .invalidOctal => "invalid octal literal"
  | .invalidDecimal => "invalid decimal literal"
  | .noDigits => "numeric literal has no digits"
  | .unreadableNumber => "could not parse integer"
  | .invalidSymbol => "unexpected character"

def help? : Kind -> Option String
  | .tooLarge => some "the range for a 16-bit unsigned integer is [0, 65535]"
  | .invalidBinary => some "a binary literal starts with '%' and consists of 0-1"
  | .invalidHex => some "a hex literal starts with '$' and consists of 0-9, A-F"
  | .invalidOctal => some "a number starting with '0' is octal and consists of 0-7"
  | .invalidDecimal => some "a decimal literal only consists of digits 0-9"
  | .noDigits => some "there should be digits after the prefix here"
  | .unreadableNumber => none
  | .invalidSymbol => some "this char does not occur in any token in 6502 assembly"

end Kind
end LexError

/-- A scan failure at the lexeme that starts in the given column. -/
structure LexError where
  kind : LexError.Kind
  line : Nat
  column : Nat
  deriving DecidableEq

namespace LexError

def diagnostic (e : LexError) : Diagnostic where
  message := e.kind.message
  span? := some (.column e.line e.column)
  help? := e.kind.help?

end LexError
end Asm65
