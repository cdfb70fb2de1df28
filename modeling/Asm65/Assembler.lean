import Asm65.Image
import Asm65.Statement.Parser
import Asm65.Symbols
import Asm65.Token.Lexer

/-!
# Assembling

Lines are assembled in order, in a single pass over the source.  A reference to a label
that is already defined is encoded at once.  Any other reference is written as zeros and
queued; after the last line the queue is worked off, in its order, against the labels of
the whole program.
-/

namespace Asm65

def located {α : Type} (line token : Nat) (result : Except StatementError.Kind α) :
    Except StatementError α :=
  result.mapError fun kind => ⟨kind, line, token⟩

/--
What the lines so far have led to.  The program counter runs from zero to `$FFFF`; after
the byte at `$FFFF` it is zero again, and `overflowed` tells that nothing can be written
until the counter is moved.
-/
structure State where
  pc : UInt16
  overflowed : Bool
  image : Image
  symbols : Symbols
  deriving DecidableEq

namespace State

def start : State :=
  ⟨0, false, #[], Symbols.empty⟩

/-!
# Writing
-/

/-- Moves the program counter.  The image always reaches up to it. -/
def moveTo (s : State) (a : UInt16) : State :=
  { s with pc := a, overflowed := false, image := s.image.growTo a.toNat }

/-- Writes a byte at the program counter and advances it. -/
def emit (s : State) (b : UInt8) : Except StatementError.Kind State :=
  if s.overflowed then .error .pcOverflow
  else .ok { s with
    pc := s.pc + 1
    overflowed := s.pc == 0xFFFF
    image := s.image.store s.pc.toNat b }

def emitAll (s : State) (bs : List UInt8) : Except StatementError.Kind State :=
  bs.foldlM emit s

/-!
# Statements
-/

def define (s : State) (line : Nat) (l : LabelRef) : Except StatementError State :=
  if s.overflowed then .error ⟨.pcOverflow, line, l.token⟩
  else if (s.symbols.address? l.name).isSome then .error ⟨.duplicateLabel l.name, line, l.token⟩
  else .ok { s with symbols := s.symbols.define l.name s.pc }

/-- Queues a reference whose operand is about to be written. -/
def defer (s : State) (line : Nat) (l : LabelRef) (kind : RefKind) : State :=
  { s with symbols := s.symbols.defer ⟨l, line, s.pc, kind⟩ }

/--
Writes the operand of the instruction at token `token`, whose opcode has just been written.
So the instruction starts one byte before the program counter.
-/
def operand (s : State) (line token : Nat) : Payload -> Except StatementError State
  | .literal bytes => located line token (s.emitAll bytes)
  | .reference kind l =>
      match s.symbols.address? l.name with
      | some target => do
          let bytes ← located line l.token (kind.encode target (s.pc - 1))
          located line token (s.emitAll bytes)
      | none => located line token ((s.defer line l kind).emitAll kind.placeholder)

def instruction (s : State) (line token : Nat) (i : Instruction) :
    Except StatementError State := do
  let s ← located line token (s.emit i.opcode)
  s.operand line token i.operand.payload

def nucleus (s : State) (line token : Nat) : Option Nucleus -> Except StatementError State
  | none => .ok s
  | some (.directive (.origin a)) => .ok (s.moveTo a)
  | some (.directive d) => located line token (s.emitAll d.emitted)
  | some (.instruction i) => s.instruction line token i

end State

/-- The token that a statement without its label begins with. -/
def Statement.nucleusToken (st : Statement) : Nat :=
  match st.label? with
  | some _ => 3
  | none => 1

namespace State

/-- Takes up a statement: its label first, at the address before anything is written. -/
def step (s : State) (st : Statement) : Except StatementError State := do
  let s ← match st.label? with
    | some l => s.define st.line l
    | none => .ok s
  s.nucleus st.line st.nucleusToken st.nucleus?

def line (s : State) (l : TokenLine) : Except StatementError State := do
  let st ← Statement.ofLine l
  s.step st

/-- Takes up lines in order, up to the first that fails. -/
def lines (s : State) (ls : List TokenLine) : Except StatementError State :=
  ls.foldlM line s

end State

/-!
# Programs
-/

/-- An assembled program: its memory and its labels. -/
structure Program where
  image : Image
  symbols : Symbols
  deriving DecidableEq

def Fixup.patch (t : Symbols) (image : Image) (f : Fixup) : Except StatementError Image :=
  match t.address? f.label.name with
  | none => .error ⟨.unresolvedLabel f.label.name, f.line, f.label.token⟩
  | some target =>
      (located f.line f.label.token (f.kind.encode target (f.offset - 1))).map fun bytes =>
        image.overwrite f.offset.toNat bytes

namespace State

def finish (s : State) : Except StatementError Program := do
  let image ← s.symbols.pending.toList.foldlM (Fixup.patch s.symbols) s.image
  return ⟨image, { s.symbols with pending := #[] }⟩

end State

namespace Program

def ofLines (ls : List TokenLine) : Except StatementError Program := do
  let s ← State.start.lines ls
  s.finish

end Program
end Asm65
