import Asm65.Include
import Asm65.Log

/-!
# The command line

Options are read from left to right, and the first that cannot be accepted decides.  A
short option takes its value from the rest of its argument, with or without an equals sign,
or else from the next argument; a long one takes it after an equals sign or from the next
argument.  Options without values can be bundled behind one dash.  No option may be given
twice, and there are no other arguments.
-/

namespace Asm65
namespace CommandLine

structure Options where
  input : String
  output : String
  print : Bool
  cutNull : Bool
  level : Log.Level
  maxDepth : Nat
  deriving DecidableEq

inductive UsageError
  | unknownOption (argument : String)
  | unexpectedArgument (argument : String)
  | missingValue
  | unneededValue (argument : String)
  | repeatedOption
  | invalidValue (value : String)
  | missingInput
  deriving DecidableEq

def UsageError.message : UsageError -> String
  | .unknownOption argument | .unexpectedArgument argument =>
      s!"unexpected argument '{argument}' found"
  | .missingValue => "a value is required for an option but none was supplied"
  | .unneededValue argument => s!"unexpected value for '{argument}' found"
  | .repeatedOption => "an option cannot be used multiple times"
  | .invalidValue value => s!"invalid value '{value}'"
  | .missingInput => "the option '--input' was not provided"

/-!
# Options
-/

inductive Field
  | input | output | level | maxDepth
  deriving DecidableEq

inductive Flag
  | field (f : Field)
  | print
  | cutNull
  | version

def Flag.ofShort? : Char -> Option Flag
  | 'i' => some (.field .input)
  | 'o' => some (.field .output)
  | 'l' => some (.field .level)
  | 'p' => some .print
  | 'n' => some .cutNull
  | 'V' => some .version
  | _ => none

def Flag.ofLong? (name : String) : Option Flag :=
  if name = "input" then some (.field .input)
  else if name = "output" then some (.field .output)
  else if name = "log-level" then some (.field .level)
  else if name = "max-include-depth" then some (.field .maxDepth)
  else if name = "print" then some .print
  else if name = "cut-null" then some .cutNull
  else if name = "version" then some .version
  else none

structure Given where
  input? : Option String
  output? : Option String
  level? : Option Log.Level
  maxDepth? : Option Nat
  print : Bool
  cutNull : Bool

namespace Given

def nothing : Given :=
  ⟨none, none, none, none, false, false⟩

/-- A value for an option that may have none yet. -/
def once {α : Type} (old? new? : Option α) (value : String) :
    Except UsageError (Option α) :=
  match old?, new? with
  | some _, _ => .error .repeatedOption
  | none, none => .error (.invalidValue value)
  | none, some a => .ok (some a)

/-- A path is any text but the empty one. -/
def path? (value : String) : Option String :=
  if value.isEmpty then none else some value

def set (g : Given) (value : String) : Field -> Except UsageError Given
  | .input => do return { g with input? := ← once g.input? (path? value) value }
  | .output => do return { g with output? := ← once g.output? (path? value) value }
  | .level => do return { g with level? := ← once g.level? (Log.Level.ofText? value) value }
  | .maxDepth => do return { g with maxDepth? := ← once g.maxDepth? (Text.nat64? value) value }

def setPrint (g : Given) : Except UsageError Given :=
  if g.print then .error .repeatedOption else .ok { g with print := true }

def setCutNull (g : Given) : Except UsageError Given :=
  if g.cutNull then .error .repeatedOption else .ok { g with cutNull := true }

/-- What was given, completed by what holds without it. -/
def complete (g : Given) : Except UsageError Options :=
  match g.input? with
  | none => .error .missingInput
  | some input => .ok {
      input := input
      output := g.output?.getD "out.bin"
      print := g.print
      cutNull := g.cutNull
      level := g.level?.getD .info
      maxDepth := g.maxDepth?.getD Include.defaultLimit }

end Given

/-!
# Arguments
-/

inductive Progress
  | ready (g : Given)
  | awaiting (g : Given) (f : Field)
  | closed (g : Given)
  | version

/-- Whether an argument is read as an option and not as a value. -/
def isOption (argument : List Char) : Bool :=
  match argument with
  | '-' :: _ :: _ => true
  | _ => false

def short (argument : String) (g : Given) : List Char -> Except UsageError Progress
  | [] => .ok (.ready g)
  | c :: cs =>
      match Flag.ofShort? c with
      | none => .error (.unknownOption argument)
      | some .version => .ok .version
      | some .print => do short argument (← g.setPrint) cs
      | some .cutNull => do short argument (← g.setCutNull) cs
      | some (.field f) =>
          match cs with
          | [] => .ok (.awaiting g f)
          | '=' :: value => (g.set (String.ofList value) f).map .ready
          | value => (g.set (String.ofList value) f).map .ready

def long (argument : String) (g : Given) (cs : List Char) : Except UsageError Progress :=
  let name := cs.takeWhile (· != '=')
  match Flag.ofLong? (String.ofList name), cs.dropWhile (· != '=') with
  | none, _ => .error (.unknownOption argument)
  | some (.field f), [] => .ok (.awaiting g f)
  | some (.field f), _ :: value => (g.set (String.ofList value) f).map .ready
  | some _, _ :: _ => .error (.unneededValue argument)
  | some .print, [] => g.setPrint.map .ready
  | some .cutNull, [] => g.setCutNull.map .ready
  | some .version, [] => .ok .version

def argument (progress : Progress) (arg : String) : Except UsageError Progress :=
  match progress, arg.toList with
  | .version, _ => .ok .version
  | .closed _, _ => .error (.unexpectedArgument arg)
  | .awaiting g f, cs => if isOption cs then .error .missingValue else (g.set arg f).map .ready
  | .ready g, ['-', '-'] => .ok (.closed g)
  | .ready g, '-' :: '-' :: cs => long arg g cs
  | .ready g, '-' :: c :: cs => short arg g (c :: cs)
  | .ready _, _ => .error (.unexpectedArgument arg)

inductive Request
  | version
  | assemble (options : Options)
  deriving DecidableEq

def Progress.request : Progress -> Except UsageError Request
  | .version => .ok .version
  | .awaiting _ _ => .error .missingValue
  | .ready g | .closed g => g.complete.map .assemble

def parse (args : List String) : Except UsageError Request := do
  let progress ← args.foldlM argument (.ready .nothing)
  progress.request

end CommandLine
end Asm65
