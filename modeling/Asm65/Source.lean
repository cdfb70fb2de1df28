import Asm65.Assembler
import Asm65.Text.Case
import Asm65.Text.Lines

/-!
# Source text

A comment runs from a semicolon to the end of its line.  Without its comment, and with its
letters in capitals, a line is ready to be scanned.
-/

namespace Asm65
namespace Source

def stripCommentChars (cs : List Char) : List Char :=
  cs.takeWhile (· != ';')

def stripComment (line : String) : String :=
  String.ofList (stripCommentChars line.toList)

/-- A line as it is scanned: without its comment, in capitals. -/
def normalize (line : String) : String :=
  String.ofList (Text.upperChars (stripCommentChars line.toList))

end Source

inductive SourceError
  | lex (e : LexError)
  | statement (e : StatementError)
  deriving DecidableEq

namespace SourceError

def diagnostic : SourceError -> Diagnostic
  | .lex e => e.diagnostic
  | .statement e => e.diagnostic

def line : SourceError -> Nat
  | .lex e => e.line
  | .statement e => e.line

end SourceError

/-- Scans and reads a line that is ready to be scanned. -/
def Statement.ofText (number : Nat) (text : String) : Except SourceError Statement := do
  let l ← (TokenLine.ofText number text).mapError .lex
  (Statement.ofLine l).mapError .statement

namespace Program

/-- Assembles lines that are ready to be scanned.  All of them are scanned first. -/
def ofTexts (texts : List String) : Except SourceError Program := do
  let ls ← (TokenLine.ofTexts texts).mapError .lex
  (ofLines ls).mapError .statement

def ofSource (source : String) : Except SourceError Program :=
  ofTexts ((Text.lines source).map Source.normalize)

end Program
end Asm65
