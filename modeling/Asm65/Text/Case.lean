/-!
# Letter case

Source text is case-blind in the letters A to Z only: every other character, accented
letters included, stands for itself.
-/

namespace Asm65
namespace Text

/-- Capitalises the letters `a` to `z` and leaves every other character alone. -/
def upperChars (cs : List Char) : List Char :=
  cs.map Char.toUpper

def upper (s : String) : String :=
  String.ofList (upperChars s.toList)

end Text
end Asm65
