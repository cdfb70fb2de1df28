/-!
# Lines

A line ends at a line feed, or at the end of the text.  A carriage return directly before
the line feed belongs to the line end; any other carriage return is part of the line.
Text that ends with a line feed has no empty line after it.
-/

namespace Asm65
namespace Text

/-- Removes one carriage return from the end of a line. -/
def dropReturn (line : List Char) : List Char :=
  if line.getLast? = some '\r' then line.dropLast else line

def lineChars (cs : List Char) : List (List Char) :=
  match cs with
  | [] => []
  | c :: cs =>
      if '\n' ∈ c :: cs then
        dropReturn ((c :: cs).takeWhile (· != '\n'))
          :: lineChars ((c :: cs).dropWhile (· != '\n')).tail
      else [c :: cs]
termination_by cs.length
decreasing_by
  have hle := (List.dropWhile_sublist (l := c :: cs) (· != '\n')).length_le
  simp only [List.length_tail, List.length_cons] at hle ⊢
  omega

def lines (s : String) : List String :=
  (lineChars s.toList).map String.ofList

end Text
end Asm65
