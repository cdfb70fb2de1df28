import Mathlib.Data.List.Sort
import Mathlib.Order.Basic

/-!
# Lists in strict order

Places in a text and entries of a listing are compared by a key.  If the key rises strictly
along a list, then the list is known from what it holds: nothing can be exchanged in it, and
nothing can be repeated.
-/

namespace Asm65

variable {α κ : Type} [Preorder κ] {key : α -> κ} {xs ys : List α}

theorem eq_of_rising (hxs : xs.Pairwise fun a b => key a < key b)
    (hys : ys.Pairwise fun a b => key a < key b) (hmem : forall a, a ∈ xs <-> a ∈ ys) :
    xs = ys := by
  have hirrefl : Std.Irrefl fun a b : α => key a < key b :=
    ⟨fun a => lt_irrefl (key a)⟩
  have hantisymm : Std.Antisymm fun a b : α => key a < key b :=
    ⟨fun _ _ h h' => (lt_asymm h h').elim⟩
  exact List.Pairwise.eq_of_mem_iff hxs hys hmem

end Asm65
