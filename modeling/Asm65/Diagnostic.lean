/-!
# Diagnostics

Every failure is shown in the same way: what went wrong, where in the source (if it has a
place there), and what to do about it (if there is something to say).
-/

namespace Asm65

/--
A place in the source after file inclusion.  Lines and tokens are counted from one,
columns are byte offsets into the line.
-/
inductive Span
  | column (line : Nat) (offset : Nat)
  | token (line : Nat) (index : Nat)
  deriving DecidableEq

namespace Span

def line : Span -> Nat
  | .column line _ => line
  | .token line _ => line

def text : Span -> String
  | .column line offset => s!"line {line}, scan position {offset}"
  | .token line index => s!"line {line}, token {index}"

end Span

structure Diagnostic where
  message : String
  span? : Option Span
  help? : Option String
  deriving DecidableEq

namespace Diagnostic

/-- The message, its place in brackets, and the hint on a line of its own. -/
def report (d : Diagnostic) : String :=
  let place := match d.span? with
    | some span => " (at " ++ span.text ++ ")"
    | none => ""
  let hint := match d.help? with
    | some help => "\nhelp: " ++ help
    | none => ""
  d.message ++ place ++ hint

end Diagnostic
end Asm65
