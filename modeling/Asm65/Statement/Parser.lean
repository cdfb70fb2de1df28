import Asm65.Statement
import Asm65.Statement.Error

/-!
# Reading statements

A statement is read from the tokens of its line, one line at a time and without regard to
any other line.  The shape of the tokens after a mnemonic decides the addressing mode:

* nothing: implied;
* `# n`: immediate, for a byte `n`;
* `A`: accumulator;
* another label: absolute for a jump, relative otherwise;
* `n`: relative for a branch and zero page otherwise if `n` is a byte, else absolute;
* `n , X` and `n , Y`: zero page or absolute indexed, by the size of `n`;
* `( n , X )` and `( n ) , Y`: indexed indirect, for a byte `n`;
* `( n )` for a larger `n`, and `( LABEL )`: indirect.

The readers below take the rest of a line and return what they read together with what
then remains.  Only at the end is the rest required to be empty.
-/

namespace Asm65

/-- What remains of a line: the number of the next token, and the tokens from there on. -/
structure Rest where
  next : Nat
  tokens : List Token
  deriving DecidableEq

/-- A failure at a token of the line that is being read. -/
structure Fault where
  kind : StatementError.Kind
  token : Nat
  deriving DecidableEq

def Fault.onLine (line : Nat) (f : Fault) : StatementError :=
  ⟨f.kind, line, f.token⟩

namespace Rest

/-!
# Expectations
-/

def found (r : Rest) : String :=
  match r.tokens with
  | t :: _ => "\"" ++ t.text ++ "\" (" ++ t.kind.text ++ ")"
  | [] => Token.Kind.endOfLine.text

def expected (wanted : String) (r : Rest) : Fault :=
  ⟨.expected wanted r.found, r.next⟩

def unexpected (r : Rest) : Fault :=
  match r.tokens with
  | t :: _ => ⟨.unexpectedToken t.text t.kind, r.next⟩
  | [] => r.expected "operand"

/-- Passes over the token `t`, which is called `wanted` in messages. -/
def expect (t : Token) (wanted : String) (r : Rest) : Except Fault Rest :=
  match r.tokens with
  | u :: ts => if u = t then .ok ⟨r.next + 1, ts⟩ else .error (r.expected wanted)
  | [] => .error (r.expected wanted)

def expectMark (t : Token) (r : Rest) : Except Fault Rest :=
  r.expect t t.kind.text

def expectRegister (name : String) (r : Rest) : Except Fault Rest :=
  r.expect (.label name) ("\"" ++ name ++ "\" (" ++ Token.Kind.label.text ++ ")")

def expectEnd (r : Rest) : Except Fault Unit :=
  match r.tokens with
  | [] => .ok ()
  | _ :: _ => .error (r.expected Token.Kind.endOfLine.text)

/-- The number at token `k`, which has to fit in a byte. -/
def byteAt (k : Nat) (n : UInt16) : Except Fault UInt8 :=
  if n < 256 then .ok n.toUInt8 else .error ⟨.byteExpected n, k⟩

/-- The number at token `k`, which may be any word. -/
def wordAt (_k : Nat) (n : UInt16) : Except Fault UInt16 :=
  .ok n

/-!
# Directives
-/

/-- One number at least, and a comma between any two; `item` checks each. -/
def valuesFrom {α : Type} (item : Nat -> UInt16 -> Except Fault α) (k : Nat) :
    List Token -> Except Fault (List α × Rest)
  | .number n :: .comma :: ts => do
      let first ← item k n
      let (others, r) ← valuesFrom item (k + 2) ts
      return (first :: others, r)
  | .number n :: ts => do
      let only ← item k n
      return ([only], ⟨k + 1, ts⟩)
  | ts => .error (expected Token.Kind.number.text ⟨k, ts⟩)

def values {α : Type} (item : Nat -> UInt16 -> Except Fault α) (r : Rest) :
    Except Fault (List α × Rest) :=
  valuesFrom item r.next r.tokens

def number (r : Rest) : Except Fault (UInt16 × Rest) :=
  match r.tokens with
  | .number n :: ts => .ok (n, ⟨r.next + 1, ts⟩)
  | _ => .error (r.expected Token.Kind.number.text)

/-- Reads a directive whose name stands at token `k`, directly before `r`. -/
def directive (name : String) (k : Nat) (r : Rest) : Except Fault (Directive × Rest) :=
  if name = "DB" then
    (r.values wordAt).map fun (values, r) => (.data values, r)
  else if name = "BYTE" ∨ name = "BYTES" then
    (r.values byteAt).map fun (values, r) => (.bytes values, r)
  else if name = "WORD" ∨ name = "WORDS" then
    (r.values wordAt).map fun (values, r) => (.words values, r)
  else if name = "ORG" then
    r.number.map fun (a, r) => (.origin a, r)
  else
    .error (unexpected ⟨k, .directive name :: r.tokens⟩)

/-!
# Operands
-/

def direct (m : Mnemonic) (n : UInt16) : Operand :=
  if n < 256 then
    if m.isBranch then .relative (.offset n.toUInt8) else .zeroPage n.toUInt8
  else .absolute (.address n)

def indexed (n : UInt16) (r : Rest) : Except Fault (Operand × Rest) :=
  match r.tokens with
  | .label name :: ts =>
      if name = "X" then
        .ok (if n < 256 then .zeroPageX n.toUInt8 else .absoluteX n, ⟨r.next + 1, ts⟩)
      else if name = "Y" then
        .ok (if n < 256 then .zeroPageY n.toUInt8 else .absoluteY n, ⟨r.next + 1, ts⟩)
      else .error r.unexpected
  | _ => .error r.unexpected

def indirect (n : UInt16) (r : Rest) : Except Fault (Operand × Rest) :=
  if n < 256 then
    match r.tokens with
    | .comma :: ts => do
        let r ← expectRegister "X" ⟨r.next + 1, ts⟩
        let r ← r.expectMark .rparen
        return (.indirectX n.toUInt8, r)
    | .rparen :: ts => do
        let r ← expectMark .comma ⟨r.next + 1, ts⟩
        let r ← r.expectRegister "Y"
        return (.indirectY n.toUInt8, r)
    | _ => .error r.unexpected
  else
    (r.expectMark .rparen).map fun r => (.indirect (.address n), r)

/-- Reads the operand of a mnemonic, the longest that the tokens allow. -/
def operand (m : Mnemonic) (r : Rest) : Except Fault (Operand × Rest) :=
  let k := r.next
  match r.tokens with
  | [] => .ok (.implied, r)
  | .hash :: .number n :: ts => (byteAt (k + 1) n).map fun b => (.immediate b, ⟨k + 2, ts⟩)
  | .hash :: ts => .error (expected Token.Kind.number.text ⟨k + 1, ts⟩)
  | .label name :: ts =>
      if name = "A" then .ok (.accumulator, ⟨k + 1, ts⟩)
      else if m.isJump then .ok (.absolute (.label ⟨name, k⟩), ⟨k + 1, ts⟩)
      else .ok (.relative (.label ⟨name, k⟩), ⟨k + 1, ts⟩)
  | .number n :: .comma :: ts => indexed n ⟨k + 2, ts⟩
  | .number n :: ts => .ok (direct m n, ⟨k + 1, ts⟩)
  | .lparen :: .number n :: ts => indirect n ⟨k + 2, ts⟩
  | .lparen :: .label name :: ts =>
      (expectMark .rparen ⟨k + 2, ts⟩).map fun r => (.indirect (.label ⟨name, k + 1⟩), r)
  | .lparen :: ts => .error (unexpected ⟨k + 1, ts⟩)
  | _ => .error r.unexpected

/--
Reads the operand of a mnemonic and looks the pair up.  A pair without an encoding is
reported at the last token of the instruction.
-/
def instruction (m : Mnemonic) (r : Rest) : Except Fault (Instruction × Rest) := do
  let (operand, r) ← r.operand m
  match Instruction.of? m operand with
  | some i => return (i, r)
  | none => throw ⟨.modeUndefined m operand.mode, r.next - 1⟩

/-!
# Lines
-/

def definition (r : Rest) : Except Fault (Option LabelRef × Rest) :=
  match r.tokens with
  | .label name :: ts =>
      (expectMark .colon ⟨r.next + 1, ts⟩).map fun r' => (some ⟨name, r.next⟩, r')
  | _ => .ok (none, r)

def nucleus (r : Rest) : Except Fault (Option Nucleus × Rest) :=
  match r.tokens with
  | [] => .ok (none, r)
  | .label name :: _ => .error ⟨.labelNotAtLineStart name, r.next⟩
  | .directive name :: ts =>
      (directive name r.next ⟨r.next + 1, ts⟩).map fun (d, r) => (some (.directive d), r)
  | .mnemonic m :: ts =>
      (instruction m ⟨r.next + 1, ts⟩).map fun (i, r) => (some (.instruction i), r)
  | _ => .error r.unexpected

end Rest

namespace Statement

/-- Reads the tokens of line `line`, to their end. -/
def ofTokens (line : Nat) (tokens : List Token) : Except Fault Statement := do
  let (label?, r) ← Rest.definition ⟨1, tokens⟩
  let (nucleus?, r) ← r.nucleus
  r.expectEnd
  return ⟨line, label?, nucleus?⟩

def ofLine (line : TokenLine) : Except StatementError Statement :=
  (ofTokens line.number line.tokens).mapError (Fault.onLine line.number)

end Statement
end Asm65
