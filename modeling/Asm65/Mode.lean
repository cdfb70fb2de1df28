/-!
# Addressing modes

The thirteen shapes an operand can take, in the order of the columns of the instruction
table.  The mode alone fixes how many bytes follow the opcode.
-/

namespace Asm65

inductive Mode
  | immediate | zeroPage | zeroPageX | zeroPageY | implied | absolute | absoluteX
  | absoluteY | indirectX | indirectY | accumulator | relative | indirect
  deriving DecidableEq, Inhabited

namespace Mode

def all : List Mode :=
  [ .immediate, .zeroPage, .zeroPageX, .zeroPageY, .implied, .absolute, .absoluteX,
    .absoluteY, .indirectX, .indirectY, .accumulator, .relative, .indirect ]

/-- The column of a mode in the instruction table, counted from zero. -/
def index (mode : Mode) : Nat :=
  all.idxOf mode

/-- How many operand bytes follow the opcode. -/
def operandSize : Mode -> Nat
  | .implied | .accumulator => 0
  | .immediate | .zeroPage | .zeroPageX | .zeroPageY
  | .indirectX | .indirectY | .relative => 1
  | .absolute | .absoluteX | .absoluteY | .indirect => 2

def text : Mode -> String
  | .immediate => "IMMEDIATE"
  | .zeroPage => "ZERO-PAGE"
  | .zeroPageX => "ZERO-PAGE X"
  | .zeroPageY => "ZERO-PAGE Y"
  | .implied => "IMPLIED"
  | .absolute => "ABSOLUTE"
  | .absoluteX => "ABSOLUTE X"
  | .absoluteY => "ABSOLUTE Y"
  | .indirectX => "INDIRECT X"
  | .indirectY => "INDIRECT Y"
  | .accumulator => "ACCUMULATOR"
  | .relative => "RELATIVE"
  | .indirect => "INDIRECT"

end Mode
end Asm65
