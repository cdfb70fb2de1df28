import Asm65.Opcode
import Asm65.Text.Decimal
import Asm65.Text.Hex

/-!
# Statements

What a source line says: an optional label definition, followed by an optional instruction
or directive.  An operand carries its addressing mode in its shape, and an instruction
carries the evidence that its mnemonic can be encoded in that mode.

Every part has a written form, in which numbers of operands are hexadecimal and numbers of
data are decimal.
-/

namespace Asm65

/-!
# Labels and operands
-/

/-- The use or definition of a label, at the given token of its line. -/
structure LabelRef where
  name : String
  token : Nat
  deriving DecidableEq

/-- A sixteen-bit operand, as a number or as the address of a label. -/
inductive Target
  | address (a : UInt16)
  | label (l : LabelRef)
  deriving DecidableEq

def Target.text : Target -> String
  | .address a => Hex.wordText a
  | .label l => l.name

/-- A branch operand, as a displacement byte or as the label to branch to. -/
inductive Branch
  | offset (d : UInt8)
  | label (l : LabelRef)
  deriving DecidableEq

def Branch.text : Branch -> String
  | .offset d => Hex.byteText d
  | .label l => l.name

inductive Operand
  | implied
  | accumulator
  | immediate (b : UInt8)
  | zeroPage (b : UInt8)
  | zeroPageX (b : UInt8)
  | zeroPageY (b : UInt8)
  | absolute (t : Target)
  | absoluteX (w : UInt16)
  | absoluteY (w : UInt16)
  | indirectX (b : UInt8)
  | indirectY (b : UInt8)
  | relative (b : Branch)
  | indirect (t : Target)
  deriving DecidableEq

namespace Operand

def mode : Operand -> Mode
  | .implied => .implied
  | .accumulator => .accumulator
  | .immediate _ => .immediate
  | .zeroPage _ => .zeroPage
  | .zeroPageX _ => .zeroPageX
  | .zeroPageY _ => .zeroPageY
  | .absolute _ => .absolute
  | .absoluteX _ => .absoluteX
  | .absoluteY _ => .absoluteY
  | .indirectX _ => .indirectX
  | .indirectY _ => .indirectY
  | .relative _ => .relative
  | .indirect _ => .indirect

def text : Operand -> String
  | .implied => ""
  | .accumulator => "A"
  | .immediate b => "#" ++ Hex.byteText b
  | .zeroPage b => Hex.byteText b
  | .zeroPageX b => Hex.byteText b ++ ",X"
  | .zeroPageY b => Hex.byteText b ++ ",Y"
  | .absolute t => t.text
  | .absoluteX w => Hex.wordText w ++ ",X"
  | .absoluteY w => Hex.wordText w ++ ",Y"
  | .indirectX b => "(" ++ Hex.byteText b ++ ",X)"
  | .indirectY b => "(" ++ Hex.byteText b ++ "),Y"
  | .relative b => b.text
  | .indirect t => "(" ++ t.text ++ ")"

end Operand

/-!
# Instructions
-/

structure Instruction where
  mnemonic : Mnemonic
  operand : Operand
  opcode : UInt8
  encoded : mnemonic.opcode? operand.mode = some opcode
  deriving DecidableEq

namespace Instruction

/-- The instruction of a mnemonic and an operand, if that pair has an encoding. -/
def of? (m : Mnemonic) (operand : Operand) : Option Instruction :=
  match h : m.opcode? operand.mode with
  | some opcode => some ⟨m, operand, opcode, h⟩
  | none => none

def size (i : Instruction) : Nat :=
  1 + i.operand.mode.operandSize

def text (i : Instruction) : String :=
  match i.operand with
  | .implied => i.mnemonic.name
  | operand => i.mnemonic.name ++ " " ++ operand.text

end Instruction

/-!
# Directives
-/

/-- The two bytes of a word, the low one first. -/
def wordBytes (w : UInt16) : List UInt8 :=
  [w.toUInt8, (w >>> 8).toUInt8]

inductive Directive
  | data (values : List UInt16)
  | bytes (values : List UInt8)
  | words (values : List UInt16)
  | origin (address : UInt16)
  deriving DecidableEq

namespace Directive

/--
The bytes a directive puts into memory.  A value of `data` takes one byte if it fits there
and two otherwise.
-/
def emitted : Directive -> List UInt8
  | .data values => values.flatMap fun v => if v < 256 then [v.toUInt8] else wordBytes v
  | .bytes values => values
  | .words values => values.flatMap wordBytes
  | .origin _ => []

/-- Data in decimal, with a comma and a space between any two values. -/
def valuesText (values : List Nat) : String :=
  String.ofList ([',', ' '].intercalate (values.map Text.decimal))

def text : Directive -> String
  | .data values => ".DB " ++ valuesText (values.map UInt16.toNat)
  | .bytes values => ".BYTE " ++ valuesText (values.map UInt8.toNat)
  | .words values => ".WORD " ++ valuesText (values.map UInt16.toNat)
  | .origin a => ".ORG " ++ Hex.wordText a

end Directive

/-!
# Whole lines
-/

inductive Nucleus
  | instruction (i : Instruction)
  | directive (d : Directive)
  deriving DecidableEq

def Nucleus.text : Nucleus -> String
  | .instruction i => i.text
  | .directive d => d.text

structure Statement where
  line : Nat
  label? : Option LabelRef
  nucleus? : Option Nucleus
  deriving DecidableEq

namespace Statement

/-- The label with its colon, then the instruction or directive. -/
def text (s : Statement) : String :=
  let label := match s.label? with
    | some l => l.name ++ ": "
    | none => ""
  let nucleus := match s.nucleus? with
    | some n => n.text
    | none => ""
  label ++ nucleus

end Statement
end Asm65
