import Asm65.Image
import Asm65.Text.Hex

/-!
# Images as text

The text form of an image is two capital hexadecimal digits for each byte, with single
spaces between.  Reading is freer about the spaces only: any run of separators may stand
between, before and after the pairs.
-/

namespace Asm65
namespace HexText

/-- The characters that may separate pairs: space, tab, line feed, form feed and return. -/
def isSeparator (c : Char) : Bool :=
  c == ' ' || c == '\t' || c == '\n' || c == '\x0c' || c == '\r'

/-- The maximal runs of characters that are no separators. -/
def runs (cs : List Char) : List (List Char) :=
  match cs with
  | [] => []
  | c :: cs =>
      if isSeparator c then runs cs
      else
        (c :: cs.takeWhile fun d => !isSeparator d)
          :: runs (cs.dropWhile fun d => !isSeparator d)
termination_by cs.length
decreasing_by
  · simp
  · have hle := (List.dropWhile_sublist (l := cs) fun d => !isSeparator d).length_le
    simp only [List.length_cons]
    omega

def byte? : List Char -> Option UInt8
  | [a, b] => do
      let high ← Hex.value? a
      let low ← Hex.value? b
      return (16 * high + low).toUInt8
  | _ => none

def encode (bytes : List UInt8) : String :=
  String.ofList ([' '].intercalate (bytes.map Hex.byte))

def decode? (text : String) : Option (List UInt8) :=
  (runs text.toList).mapM byte?

end HexText
end Asm65
