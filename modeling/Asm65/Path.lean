/-!
# Paths

A path is a text whose pieces are divided by slashes.  Pieces that are empty or a single
dot name nothing new; only a dot at the very start is kept as a piece of its own.
-/

namespace Asm65
namespace Path

/-- The pieces between slashes; there is always one more than there are slashes. -/
def pieces (cs : List Char) : List (List Char) :=
  cs.foldr
    (fun c ps =>
      if c = '/' then [] :: ps
      else
        match ps with
        | p :: ps => (c :: p) :: ps
        | [] => [[c]])
    [[]]

def isAbsolute (path : String) : Bool :=
  path.toList.head? == some '/'

def endsInSlash (path : String) : Bool :=
  path.toList.getLast? == some '/'

def names (path : String) : List String :=
  ((pieces path.toList).filter (· ≠ [])).map String.ofList

/-- The path `path` as seen from the directory `base`. -/
def join (base path : String) : String :=
  if isAbsolute path || base.isEmpty then path
  else if endsInSlash base then base ++ path
  else base ++ "/" ++ path

/-- Whether a piece of a path leads nowhere. -/
def isVoid (piece : List Char) : Bool :=
  piece == [] || piece == ['.']

/-- Separates the root, or the dot that a path starts with, from what follows. -/
def splitLead : List Char -> List Char × List Char
  | '/' :: body => (['/'], body)
  | ['.'] => (['.'], [])
  | '.' :: '/' :: body => (['.'], '/' :: body)
  | body => ([], body)

/--
The directory that a path lies in: the path without its last name, and without the void
pieces around that name.  It is empty if there is no such name.
-/
def parent (path : String) : String :=
  let (lead, body) := splitLead path.toList
  match (pieces body).reverse.dropWhile isVoid with
  | [] => ""
  | _ :: before =>
      String.ofList (lead ++ ['/'].intercalate (before.dropWhile isVoid).reverse)

end Path
end Asm65
