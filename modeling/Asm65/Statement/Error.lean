import Asm65.Diagnostic
import Asm65.Opcode
import Asm65.Token

/-!
# Errors of statements

A line that was scanned can still fail to be a statement, and a statement can fail to find
its place in memory.  Both kinds of failure point at a token of a line.
-/

namespace Asm65
namespace StatementError

inductive Kind
  | unexpectedToken (found : String) (kind : Token.Kind)
  | expected (expected : String) (found : String)
  | labelNotAtLineStart (name : String)
  | duplicateLabel (name : String)
  | modeUndefined (mnemonic : Mnemonic) (mode : Mode)
  | byteExpected (value : UInt16)
  | offsetOutOfRange (displacement : Int)
  | unresolvedLabel (name : String)
  | pcOverflow
  deriving DecidableEq

namespace Kind

def message : Kind -> String
  | .unexpectedToken found kind => "unexpected token \"" ++ found ++ "\" (" ++ kind.text ++ ")"
  | .expected wanted found => "expected " ++ wanted ++ ", but found " ++ found
  | .labelNotAtLineStart name =>
      "label \"" ++ name ++ "\" can only be defined at the beginning of a line"
  | .duplicateLabel name => "duplicate label \"" ++ name ++ "\""
  | .modeUndefined mnemonic mode =>
      "opcode " ++ mnemonic.name ++ " is not defined for mode " ++ mode.text
  | .byteExpected _ => "expected byte, but found word"
  | .offsetOutOfRange _ => "label offset is out of range"
  | .unresolvedLabel name => "couldn't resolve label \"" ++ name ++ "\""
  | .pcOverflow => "program counter passed the end of memory"

def help? : Kind -> Option String
  | .unexpectedToken _ .directive =>
      some "the supported directives are .ORG, .DB, .BYTE, .BYTES, .WORD, and .WORDS"
  | .unexpectedToken _ _ =>
      some "a line starts with a label definition, a directive, or an instruction"
  | .expected _ _ => none
  | .labelNotAtLineStart _ => some "only one label can be defined per line"
  | .duplicateLabel _ =>
      some "labels must be unique within a program, try renaming one of the labels"
  | .modeUndefined _ .relative =>
      some "only branches take a label operand, except for JMP and JSR"
  | .modeUndefined _ _ => none
  | .byteExpected _ => some "immediate operands must be in [0, 255]"
  | .offsetOutOfRange d =>
      some s!"branch displacements must be in [-128, 127], but this is {d}"
  | .unresolvedLabel _ => some "try defining this label at the start of a line (e.g., `LABEL:`)"
  | .pcOverflow => some "the last addressable byte is $FFFF"

end Kind
end StatementError

/-- A failure at a token of a line, both counted from one. -/
structure StatementError where
  kind : StatementError.Kind
  line : Nat
  token : Nat
  deriving DecidableEq

namespace StatementError

def diagnostic (e : StatementError) : Diagnostic where
  message := e.kind.message
  span? := some (.token e.line e.token)
  help? := e.kind.help?

end StatementError
end Asm65
