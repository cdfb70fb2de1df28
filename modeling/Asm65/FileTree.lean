import Asm65.Path

/-!
# Trees of files

The files that a run can see, below the directory it works in.  A directory exists if it is
listed, if something lies in it, or if the working directory itself lies in it.

A place in the tree is the list of names that lead to it.  The directories above the
working directory are the lists of `..`, and the root is `/`; nothing else is known of what
lies outside.
-/

namespace Asm65

inductive FileError
  | notFound
  | notDirectory
  | isDirectory
  | nameTooLong
  | invalidText
  | nulInName
  | other (description : String)
  deriving DecidableEq

def FileError.text : FileError -> String
  | .notFound => "No such file or directory (os error 2)"
  | .notDirectory => "Not a directory (os error 20)"
  | .isDirectory => "Is a directory (os error 21)"
  | .nameTooLong => "File name too long (os error 36)"
  | .invalidText => "stream did not contain valid UTF-8"
  | .nulInName => "file name contained an unexpected NUL byte"
  | .other description => description

/-- The names that lead to a file or directory. -/
abbrev Place := List String

structure FileTree where
  files : List (Place × ByteArray)
  directories : List Place

namespace FileTree

def empty : FileTree :=
  ⟨[], []⟩

/-!
# Places
-/

def contents? (t : FileTree) (p : Place) : Option ByteArray :=
  t.files.lookup p

def isDirectory (t : FileTree) (p : Place) : Bool :=
  p.all (· == "..") || p == ["/"]
    || t.directories.any (p.isPrefixOf ·)
    || t.files.any fun (q, _) => p.isPrefixOf q && p != q

def above (p : Place) : Place :=
  if p.all (· == "..") then ".." :: p
  else if p == ["/"] then p
  else p.dropLast

/-- The longest name a file can have, in bytes. -/
def maxNameSize : Nat := 255

/-- The size in bytes that a path has to stay below. -/
def maxPathSize : Nat := 4096

/-- Goes from a place to what is called `name` there. -/
def enter (t : FileTree) (p : Place) (name : String) : Except FileError Place :=
  if !t.isDirectory p then .error .notDirectory
  else if name = "." then .ok p
  else if name = ".." then .ok (above p)
  else if name.utf8ByteSize > maxNameSize then .error .nameTooLong
  else
    let q := p ++ [name]
    if t.isDirectory q || (t.contents? q).isSome then .ok q else .error .notFound

def startOf (path : String) : Place :=
  if Path.isAbsolute path then ["/"] else []

def walk (t : FileTree) (p : Place) (names : List String) : Except FileError Place :=
  names.foldlM t.enter p

/-- Refuses what no path can be. -/
def checkPath (path : String) : Except FileError Unit :=
  if path.toList.contains '\x00' then .error .nulInName
  else if path.isEmpty then .error .notFound
  else if path.utf8ByteSize ≥ maxPathSize then .error .nameTooLong
  else .ok ()

/-!
# Reading and writing
-/

def readBytes (t : FileTree) (path : String) : Except FileError ByteArray := do
  checkPath path
  let p ← t.walk (startOf path) (Path.names path)
  match t.contents? p with
  | some bytes => if Path.endsInSlash path then throw .notDirectory else return bytes
  | none => throw .isDirectory

def readText (t : FileTree) (path : String) : Except FileError String := do
  let bytes ← t.readBytes path
  match String.fromUTF8? bytes with
  | some text => return text
  | none => throw .invalidText

def insert (t : FileTree) (p : Place) (bytes : ByteArray) : FileTree :=
  { t with files := (p, bytes) :: t.files.filter fun (q, _) => q != p }

/-- Adds a directory, with all that lead to it. -/
def insertDirectory (t : FileTree) (p : Place) : FileTree :=
  { t with directories := p :: t.directories }

/-- The place where a file written to a path is put; its directory has to exist. -/
def placeToWrite (t : FileTree) (path : String) : Except FileError Place := do
  checkPath path
  match (Path.names path).getLast? with
  | none => throw .isDirectory
  | some name =>
      let p ← t.walk (startOf path) (Path.names path).dropLast
      if !t.isDirectory p then throw .notDirectory
      else if name = "." ∨ name = ".." ∨ Path.endsInSlash path then throw .isDirectory
      else if name.utf8ByteSize > maxNameSize then throw .nameTooLong
      else if t.isDirectory (p ++ [name]) then throw .isDirectory
      else return p ++ [name]

/-- Makes a path a file with the given bytes, replacing the file that is there. -/
def write (t : FileTree) (path : String) (bytes : ByteArray) : Except FileError FileTree := do
  let p ← t.placeToWrite path
  return t.insert p bytes

end FileTree
end Asm65
