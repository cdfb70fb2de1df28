import Asm65.Run

/-!
# The program

Connects a run to the files, the standard output and the standard error stream.  What is
read, written and told is decided by `Asm65.Run`.
-/

namespace Asm65
namespace Main

open CommandLine (Options)

def fileError : IO.Error -> FileError
  | .noFileOrDirectory _ _ _ => .notFound
  | .inappropriateType _ 21 _ => .isDirectory
  | .inappropriateType _ _ _ => .notDirectory
  | e => .other e.toString

def readFile (path : String) : IO (Except FileError String) := do
  match FileTree.checkPath path with
  | .error e => return .error e
  | .ok () =>
      match ← (IO.FS.readBinFile path).toBaseIO with
      | .error e => return .error (fileError e)
      | .ok bytes =>
          match String.fromUTF8? bytes with
          | some text => return .ok text
          | none => return .error .invalidText

def writeFile (path : String) (image : Image) : IO (Except FileError Unit) := do
  match FileTree.checkPath path with
  | .error e => return .error e
  | .ok () =>
      match ← (IO.FS.writeBinFile path ⟨image⟩).toBaseIO with
      | .error e => return .error (fileError e)
      | .ok () => return .ok ()

abbrev Sources := List (String × Except FileError String)

def Sources.read (sources : Sources) : Include.Reader :=
  fun path => (sources.lookup path).getD (.error .notFound)

/-- Reads the files that a run opens, one after the other. -/
partial def load (o : Options) (sources : Sources) : IO Sources := do
  let paths := o.input :: Include.visits sources.read o.maxDepth o.input
  match paths.find? fun path => (sources.lookup path).isNone with
  | none => return sources
  | some path => load o ((path, ← readFile path) :: sources)

/-- Shows events with the time that has passed since `start`. -/
def tell (o : Options) (start : Nat) (events : List Log.Event) : IO Unit := do
  let now ← IO.monoNanosNow
  let micros := (now - start) / 1000
  for e in Log.upTo o.level events do
    IO.eprintln (e.level.text ++ " " ++ e.origin.text ++ ": " ++ e.message s!"{micros}µs")

def assemble (o : Options) : IO UInt32 := do
  let start ← IO.monoNanosNow
  let sources ← load o []
  let b := Build.ofFile sources.read o
  tell o start b.log
  match b.result with
  | .error report =>
      tell o start [.failed report]
      return 1
  | .ok image =>
      match ← writeFile o.output image with
      | .error e =>
          tell o start [.failed (writeReport o.output e)]
          return 1
      | .ok () =>
          if o.print then IO.print (printed image)
          tell o start (closingEvents image)
          return 0

def run (args : List String) : IO UInt32 := do
  match CommandLine.parse args with
  | .error e =>
      IO.eprintln ("error: " ++ e.message)
      return 2
  | .ok .version =>
      IO.print versionText
      return 0
  | .ok (.assemble o) => assemble o

end Main
end Asm65

def main (args : List String) : IO UInt32 :=
  Asm65.Main.run args
