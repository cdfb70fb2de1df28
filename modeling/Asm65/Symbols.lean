import Asm65.Reference

/-!
# Symbol tables

The addresses of the labels that are defined so far, and the references that still wait for
a definition.
-/

namespace Asm65

/-- A reference whose operand bytes, from `offset` on, are still to be filled in. -/
structure Fixup where
  label : LabelRef
  line : Nat
  offset : UInt16
  kind : RefKind
  deriving DecidableEq

structure Symbols where
  labels : List (String × UInt16)
  pending : Array Fixup
  deriving DecidableEq

namespace Symbols

def empty : Symbols :=
  ⟨[], #[]⟩

def address? (t : Symbols) (name : String) : Option UInt16 :=
  t.labels.lookup name

/-- Adds a label that is not in the table yet. -/
def define (t : Symbols) (name : String) (a : UInt16) : Symbols :=
  { t with labels := (name, a) :: t.labels }

def defer (t : Symbols) (f : Fixup) : Symbols :=
  { t with pending := t.pending.push f }

/-- Whether one label is listed before another: by address, then by name. -/
def precedes (p q : String × UInt16) : Bool :=
  p.2 < q.2 || (p.2 == q.2 && decide (p.1 ≤ q.1))

/-- The labels in the order of their addresses, and of their names at one address. -/
def listing (t : Symbols) : List (String × UInt16) :=
  t.labels.mergeSort precedes

end Symbols
end Asm65
