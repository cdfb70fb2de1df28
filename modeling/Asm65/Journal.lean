import Asm65.Assembler
import Asm65.Include
import Asm65.Log

/-!
# What a run logs

The events of an expansion and of an assembly, in the order in which they happen and up to
the first failure.  They are read off the same steps that do the work, so the steps
themselves carry no log.
-/

namespace Asm65

/-!
# Inclusion
-/

namespace Include

/-- The files opened while a source is expanded, and whether nothing failed on the way. -/
structure Visits where
  paths : List String
  complete : Bool

namespace Visits

def nothing : Visits :=
  ⟨[], true⟩

def failure : Visits :=
  ⟨[], false⟩

/-- What one line opens, given what an included file opens. -/
def ofLine (base : String) (visit : String -> Visits) (line : String) : Visits :=
  match path? (Source.stripComment line) with
  | none => nothing
  | some path => if path.isEmpty then failure else visit (Path.join base path)

/-- What lines open, up to the first line that fails. -/
def ofLines (base : String) (visit : String -> Visits) : List String -> Visits
  | [] => nothing
  | line :: lines =>
      let first := ofLine base visit line
      if first.complete then
        let others := ofLines base visit lines
        ⟨first.paths ++ others.paths, others.complete⟩
      else first

def ofFile (read : Reader) (visit : String -> Visits) (path : String) : Visits :=
  match read path with
  | .error _ => failure
  | .ok text => ofLines (Path.parent path) visit (Text.lines text)

/-- An included file, and what its lines open in `levels - 1` further levels. -/
def ofIncluded (read : Reader) : Nat -> String -> Visits
  | 0, _ => failure
  | levels + 1, path =>
      let inner := ofFile read (ofIncluded read levels) path
      ⟨path :: inner.paths, inner.complete⟩

end Visits

/-- The files that are included from a file, in the order in which they are opened. -/
def visits (read : Reader) (limit : Nat) (path : String) : List String :=
  (Visits.ofFile read (Visits.ofIncluded read limit) path).paths

end Include

/-!
# Assembly
-/

namespace State

open Log

/-- A reference is deferred after the opcode is written, so at the next address. -/
def nucleusEvents (s : State) : Option Nucleus -> List Event
  | some (.directive (.origin a)) => [.moved s.pc a]
  | some (.instruction i) =>
      match i.operand.payload with
      | .literal _ => []
      | .reference kind l =>
          if s.overflowed || (s.symbols.address? l.name).isSome then []
          else [.deferred kind l.name (s.pc + 1)]
  | _ => []

def stepEvents (s : State) (st : Statement) : List Event :=
  match st.label? with
  | none => s.nucleusEvents st.nucleus?
  | some l =>
      match s.define st.line l with
      | .error _ => []
      | .ok s' => .defined l.name s.pc :: s'.nucleusEvents st.nucleus?

/-- Working off queued references, to the completed program. -/
def patchEvents (s : State) : List Fixup -> List Event
  | [] => [.assembled s.image.size s.symbols.labels.length]
  | f :: fs =>
      match s.symbols.address? f.label.name with
      | none => []
      | some a =>
          match f.kind.encode a (f.offset - 1) with
          | .error _ => []
          | .ok _ => .patched f.kind f.label.name a f.offset :: s.patchEvents fs

def finishEvents (s : State) : List Event :=
  .resolving s.symbols.pending.size :: s.patchEvents s.symbols.pending.toList

def linesEvents (s : State) : List TokenLine -> List Event
  | [] => s.finishEvents
  | l :: ls =>
      match Statement.ofLine l with
      | .error _ => []
      | .ok st =>
          let events := s.stepEvents st
          match s.step st with
          | .error _ => events
          | .ok s' => events ++ s'.linesEvents ls

end State

def Program.events (ls : List TokenLine) : List Log.Event :=
  .assembling ls.length :: State.start.linesEvents ls

end Asm65
