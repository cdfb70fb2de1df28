import Asm65.Statement
import Asm65.Statement.Error

/-!
# References to labels

An operand is either known from the line itself, or it stands for a label.  A label is
encoded as its address, or, in a branch, as its distance from the end of the branch.
-/

namespace Asm65

inductive RefKind
  | absolute
  | relative
  deriving DecidableEq

/--
The displacement byte of a branch at `origin` to `target`.  Displacements count from the
end of the two-byte branch and have to fit in a signed byte.
-/
def branchOffset (target origin : UInt16) : Except StatementError.Kind UInt8 :=
  let d : Int := (target.toNat : Int) - ((origin.toNat : Int) + 2)
  if -128 ≤ d ∧ d ≤ 127 then .ok (UInt8.ofInt d) else .error (.offsetOutOfRange d)

namespace RefKind

def text : RefKind -> String
  | .absolute => "Absolute"
  | .relative => "Relative"

/-- The operand bytes of a reference to `target` in the instruction at `origin`. -/
def encode (target origin : UInt16) : RefKind -> Except StatementError.Kind (List UInt8)
  | .absolute => .ok (wordBytes target)
  | .relative => (branchOffset target origin).map fun d => [d]

/-- What stands in for the operand bytes until the label is known. -/
def placeholder : RefKind -> List UInt8
  | .absolute => [0, 0]
  | .relative => [0]

end RefKind

inductive Payload
  | literal (bytes : List UInt8)
  | reference (kind : RefKind) (label : LabelRef)
  deriving DecidableEq

def Operand.payload : Operand -> Payload
  | .implied => .literal []
  | .accumulator => .literal []
  | .immediate b => .literal [b]
  | .zeroPage b => .literal [b]
  | .zeroPageX b => .literal [b]
  | .zeroPageY b => .literal [b]
  | .absolute (.address a) => .literal (wordBytes a)
  | .absolute (.label l) => .reference .absolute l
  | .absoluteX w => .literal (wordBytes w)
  | .absoluteY w => .literal (wordBytes w)
  | .indirectX b => .literal [b]
  | .indirectY b => .literal [b]
  | .relative (.offset d) => .literal [d]
  | .relative (.label l) => .reference .relative l
  | .indirect (.address a) => .literal (wordBytes a)
  | .indirect (.label l) => .reference .absolute l

end Asm65
