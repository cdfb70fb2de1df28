import Asm65.FileTree
import Asm65.Source
import Asm65.Text.Blank

/-!
# Included files

A line `.INCLUDE path` stands for the lines of another file, whose path is relative to the
directory of the file with the line.  Inclusion is followed to a limited depth, so that it
ends even if files include each other.
-/

namespace Asm65

inductive IncludeError
  | unreadable (path : String) (cause : FileError)
  | tooDeep (path : String) (limit : Nat)
  | missingPath (file? : Option String) (line : Nat)
  deriving DecidableEq

namespace IncludeError

def message : IncludeError -> String
  | .unreadable path cause => "could not read " ++ path ++ ": " ++ cause.text
  | .tooDeep path limit =>
      s!"cannot include {path}, includes are nested more than {limit} deep"
  | .missingPath (some file) line => s!".INCLUDE is missing a file path (line {line} of {file})"
  | .missingPath none line => s!".INCLUDE is missing a file path (line {line})"

def help : IncludeError -> String
  | .unreadable _ _ => "include paths are relative to the file which includes them"
  | .tooDeep _ _ => "check for files which include each other"
  | .missingPath _ _ =>
      "write the file to include after the directive (e.g., `.INCLUDE \"lib.asm\"`)"

/-- These errors arise before lines have their final numbers, so they have no span. -/
def diagnostic (e : IncludeError) : Diagnostic where
  message := e.message
  span? := none
  help? := some e.help

def cause? : IncludeError -> Option String
  | .unreadable _ cause => some cause.text
  | .tooDeep _ _ => none
  | .missingPath _ _ => none

end IncludeError

namespace Include

/-!
# Include lines
-/

def keyword : List Char :=
  ".INCLUDE".toList

def dropOpenQuote : List Char -> List Char
  | '"' :: cs => cs
  | cs => cs

def dropCloseQuote (cs : List Char) : List Char :=
  if cs.getLast? = some '"' then cs.dropLast else cs

/-- A path as it is written after the keyword, without blanks and quotation marks around. -/
def unquote (cs : List Char) : List Char :=
  Text.trim (dropCloseQuote (dropOpenQuote (Text.trim cs)))

/--
The path on a line that includes a file, which may be empty.  The keyword may be in either
case, and ends at a blank or at the end of the line.
-/
def pathChars? (line : List Char) : Option (List Char) :=
  let cs := Text.trimStart line
  if Text.upperChars (cs.take keyword.length) = keyword then
    match cs.drop keyword.length with
    | [] => some []
    | c :: cs => if Text.isBlank c then some (unquote (c :: cs)) else none
  else none

def path? (line : String) : Option String :=
  (pathChars? line.toList).map String.ofList

/-!
# Expansion
-/

abbrev Reader := String -> Except FileError String

/-- How deep inclusion is followed if nothing else is asked for. -/
def defaultLimit : Nat := 64

/-- The lines that one line stands for, given how the file at a path is expanded. -/
def expandLine (base : String) (file? : Option String)
    (expand : String -> Except IncludeError (List String)) (line : String × Nat) :
    Except IncludeError (List String) :=
  match path? (Source.stripComment line.1) with
  | none => .ok [Source.normalize line.1]
  | some path =>
      if path.isEmpty then .error (.missingPath file? line.2)
      else expand (Path.join base path)

/-- The lines that a text stands for, in order, up to the first failure. -/
def expandText (base : String) (file? : Option String)
    (expand : String -> Except IncludeError (List String)) (text : String) :
    Except IncludeError (List String) :=
  (((Text.lines text).zipIdx 1).mapM (expandLine base file? expand)).map List.flatten

/-- The lines that a file stands for, given how the files that it includes are expanded. -/
def expandWith (read : Reader) (expand : String -> Except IncludeError (List String))
    (path : String) : Except IncludeError (List String) :=
  match read path with
  | .error cause => .error (.unreadable path cause)
  | .ok text => expandText (Path.parent path) (some path) expand text

/-- Expansion of the files included by a source, when `levels` more levels are allowed. -/
def expandIncluded (read : Reader) (limit : Nat) :
    Nat -> String -> Except IncludeError (List String)
  | 0, path => .error (.tooDeep path limit)
  | levels + 1, path => expandWith read (expandIncluded read limit levels) path

def ofFile (read : Reader) (limit : Nat) (path : String) :
    Except IncludeError (List String) :=
  expandWith read (expandIncluded read limit limit) path

/-- The lines of a text that stands in the directory `base`, ready to be scanned. -/
def ofText (read : Reader) (limit : Nat) (base text : String) :
    Except IncludeError (List String) :=
  expandText base none (expandIncluded read limit limit) text

end Include

/-!
# Programs in files
-/

inductive BuildError
  | inclusion (e : IncludeError)
  | source (e : SourceError)
  deriving DecidableEq

def Program.ofFile (read : Include.Reader) (limit : Nat) (path : String) :
    Except BuildError Program := do
  let texts ← (Include.ofFile read limit path).mapError .inclusion
  (Program.ofTexts texts).mapError .source

end Asm65
