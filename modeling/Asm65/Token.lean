import Asm65.Mnemonic
import Asm65.Text.Decimal

/-!
# Tokens

The words of a source line.  A name that is spelled like a mnemonic is that mnemonic; every
other name is a label, the register names `A`, `X` and `Y` included.
-/

namespace Asm65

inductive Token
  | hash
  | comma
  | colon
  | lparen
  | rparen
  | number (value : UInt16)
  | directive (name : String)
  | mnemonic (m : Mnemonic)
  | label (name : String)
  deriving DecidableEq

namespace Token

/-- The class of a token.  The end of the line counts as a class of its own. -/
inductive Kind
  | immediate | comma | colon | lparen | rparen | number | directive | operator | label
  | endOfLine
  deriving DecidableEq

def Kind.text : Kind -> String
  | .immediate => "IMMEDIATE"
  | .comma => "COMMA"
  | .colon => "COLON"
  | .lparen => "LPAREN"
  | .rparen => "RPAREN"
  | .number => "NUMBER"
  | .directive => "DIRECTIVE"
  | .operator => "OPERATOR"
  | .label => "LABEL"
  | .endOfLine => "EOL"

def kind : Token -> Kind
  | .hash => .immediate
  | .comma => .comma
  | .colon => .colon
  | .lparen => .lparen
  | .rparen => .rparen
  | .number _ => .number
  | .directive _ => .directive
  | .mnemonic _ => .operator
  | .label _ => .label

/-- A token in its written form.  Numbers are written in decimal. -/
def text : Token -> String
  | .hash => "#"
  | .comma => ","
  | .colon => ":"
  | .lparen => "("
  | .rparen => ")"
  | .number n => String.ofList (Text.decimal n.toNat)
  | .directive name => "." ++ name
  | .mnemonic m => m.name
  | .label name => name

/-- Reads a name: a mnemonic if there is one of that name, else a label. -/
def ofName (name : String) : Token :=
  match Mnemonic.ofName? name with
  | some m => .mnemonic m
  | none => .label name

end Token

/-- The tokens of one line, with the number of the line. -/
structure TokenLine where
  number : Nat
  tokens : List Token
  deriving DecidableEq

end Asm65
