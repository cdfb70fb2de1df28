import Asm65.CommandLine
import Asm65.Image.HexText
import Asm65.Journal

/-!
# Runs

A run puts the source together, scans it, assembles it, and writes the image.  Nothing is
written unless everything before has succeeded.
-/

namespace Asm65

open CommandLine (Options Request)
open Log (Event)

/-!
# Building
-/

/-- What a build leads to, before anything is written: its events, and the image or a report. -/
structure Build where
  log : List Event
  result : Except String Image

namespace Build

/-- The report of an error together with the line that it is about. -/
def reportLine (e : SourceError) (lines : List String) : String :=
  let line? := if e.line = 0 then none else lines[e.line - 1]?
  e.diagnostic.report ++
    match line? with
    | some line => "\n  | " ++ String.ofList (Text.trimEnd line.toList)
    | none => ""

def ofLines (o : Options) (texts : List String) (ls : List TokenLine) : Build :=
  let log := Program.events ls
  match Program.ofLines ls with
  | .error e => ⟨log, .error (reportLine (.statement e) texts)⟩
  | .ok p =>
      ⟨log ++ p.symbols.listing.map fun (name, a) => .symbol name a,
        .ok (if o.cutNull then p.image.cutLeadingZeros else p.image)⟩

def ofTexts (o : Options) (texts : List String) : Build :=
  match TokenLine.ofTexts texts with
  | .error e => ⟨[], .error (reportLine (.lex e) texts)⟩
  | .ok ls =>
      let b := ofLines o texts ls
      { b with log := .tokensReady :: b.log }

def ofFile (read : Include.Reader) (o : Options) : Build :=
  let log := .started o.input o.output
    :: (Include.visits read o.maxDepth o.input).map .including
  match Include.ofFile read o.maxDepth o.input with
  | .error e => ⟨log, .error e.diagnostic.report⟩
  | .ok texts =>
      let b := ofTexts o texts
      { b with log := log ++ .expanded o.input texts.length :: .sourceReady :: b.log }

end Build

/-!
# Outcomes
-/

structure Outcome where
  exitCode : Nat
  stdout : String
  log : List Event
  files : FileTree

def printed (image : Image) : String :=
  "Assembler output: " ++ HexText.encode image.toList ++ "\n"

def writeReport (output : String) (e : FileError) : String :=
  "cannot write " ++ output ++ ": " ++ e.text

def closingEvents (image : Image) : List Event :=
  [.written image.size, .finished]

def versionText : String :=
  "mos6502-asm 0.1.0\n"

namespace Outcome

/-- A run with the given options on the given files. -/
def ofOptions (o : Options) (files : FileTree) : Outcome :=
  let b := Build.ofFile files.readText o
  match b.result with
  | .error report => ⟨1, "", Log.upTo o.level (b.log ++ [.failed report]), files⟩
  | .ok image =>
      match files.write o.output ⟨image⟩ with
      | .error e =>
          ⟨1, "", Log.upTo o.level (b.log ++ [.failed (writeReport o.output e)]), files⟩
      | .ok files =>
          ⟨0, if o.print then printed image else "",
            Log.upTo o.level (b.log ++ closingEvents image), files⟩

/-- A run with the given arguments on the given files. -/
def ofArguments (args : List String) (files : FileTree) : Outcome :=
  match CommandLine.parse args with
  | .error _ => ⟨2, "", [], files⟩
  | .ok .version => ⟨0, versionText, [], files⟩
  | .ok (.assemble o) => ofOptions o files

end Outcome
end Asm65
