import Asm65.Token
import Asm65.Token.Numeral

/-!
# The scan of a line

A line is read from the left.  The first character of a lexeme decides its shape, and the
lexeme is as long as its shape allows.  Lexemes hold ASCII characters only, so the number
of characters read is also the byte offset.
-/

namespace Asm65

/-- What a lexeme is, as its first character tells. -/
inductive Shape
  | mark (token : Token)
  | number
  | directive
  | name

namespace Shape

def isLetter (c : Char) : Bool :=
  'A' ≤ c && c ≤ 'Z'

def isDecimal (c : Char) : Bool :=
  '0' ≤ c && c ≤ '9'

def isWordChar (c : Char) : Bool :=
  isLetter c || isDecimal c || c == '_'

def ofFirst? (c : Char) : Option Shape :=
  match c with
  | '#' => some (.mark .hash)
  | ',' => some (.mark .comma)
  | ':' => some (.mark .colon)
  | '(' => some (.mark .lparen)
  | ')' => some (.mark .rparen)
  | '.' => some .directive
  | '%' => some .number
  | '$' => some .number
  | c => if isDecimal c then some .number else if isLetter c then some .name else none

def continues : Shape -> Char -> Bool
  | .mark _, _ => false
  | .number, c => Hex.isDigit c
  | .directive, c => isWordChar c
  | .name, c => isWordChar c

/-- The token of a lexeme, given its first character and the others. -/
def token : Shape -> Char -> List Char -> Except LexError.Kind Token
  | .mark t, _, _ => .ok t
  | .number, c, cs => (Numeral.read (c :: cs)).map .number
  | .directive, _, cs => .ok (.directive (String.ofList cs))
  | .name, c, cs => .ok (.ofName (String.ofList (c :: cs)))

end Shape

namespace Token

/-- The characters that separate lexemes and have no other meaning. -/
def isSpace (c : Char) : Bool :=
  c == ' ' || c == '\t' || c == '\r' || c == '\n'

/-- Reads the tokens of line `line` from the characters that start in column `column`. -/
def scan (line : Nat) (column : Nat) (cs : List Char) : Except LexError (List Token) :=
  match cs with
  | [] => .ok []
  | c :: cs =>
      if isSpace c then scan line (column + 1) cs
      else
        match Shape.ofFirst? c with
        | none => .error ⟨.invalidSymbol, line, column⟩
        | some shape =>
            let body := cs.takeWhile shape.continues
            match shape.token c body with
            | .error kind => .error ⟨kind, line, column⟩
            | .ok token =>
                (scan line (column + 1 + body.length) (cs.dropWhile shape.continues)).map
                  (token :: ·)
termination_by cs.length
decreasing_by
  · simp
  · have hle := (List.dropWhile_sublist (l := cs) shape.continues).length_le
    simp only [List.length_cons]
    omega

end Token

namespace TokenLine

def ofText (number : Nat) (text : String) : Except LexError TokenLine :=
  (Token.scan number 0 text.toList).map (TokenLine.mk number)

/-- The tokens of every line, numbered from one; the first line that fails decides. -/
def ofTexts (texts : List String) : Except LexError (List TokenLine) :=
  (texts.zipIdx 1).mapM fun (text, number) => ofText number text

end TokenLine
end Asm65
