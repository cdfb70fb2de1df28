import Asm65.Image.HexText
import Asm65.Proofs.Lexemes

/-!
# Reading images back

A run ends where a separator stands, and nowhere else.  So runs that are joined by spaces come
apart again as they were, and a text that was written from bytes is read as these bytes.
-/

namespace Asm65
namespace HexText

/-- Space, tab, line feed, form feed and return. -/
def separatorChars : List Char :=
  [' ', '\t', '\n', '\x0c', '\r']

/-- Some characters, none of them a separator. -/
def IsRun (cs : List Char) : Prop :=
  cs ≠ [] ∧ forall c, c ∈ cs -> c ∉ separatorChars

theorem isSeparator_iff_mem {c : Char} : isSeparator c = true <-> c ∈ separatorChars := by
  simp [isSeparator, separatorChars, or_assoc]

theorem isSeparator_eq_false_iff {c : Char} : isSeparator c = false <-> c ∉ separatorChars := by
  rw [<- isSeparator_iff_mem, Bool.not_eq_true]

theorem runs_separator {c : Char} (h : c ∈ separatorChars) (cs : List Char) :
    runs (c :: cs) = runs cs := by
  rw [runs, if_pos (isSeparator_iff_mem.mpr h)]

/-- A run is taken as a whole if nothing follows it that would belong to it. -/
theorem runs_append {run rest : List Char} (h : IsRun run)
    (hrest : forall c, rest.head? = some c -> c ∈ separatorChars) :
    runs (run ++ rest) = run :: runs rest := by
  cases run with
  | nil => exact (h.left rfl).elim
  | cons c cs =>
      have hc : ¬ isSeparator c = true :=
        mt isSeparator_iff_mem.mp (h.right c List.mem_cons_self)
      have hcs : forall d, d ∈ cs -> (!isSeparator d) = true := by
        intro d hd
        rw [isSeparator_eq_false_iff.mpr (h.right d (List.mem_cons_of_mem c hd))]
        rfl
      have htake : rest.takeWhile (fun d => !isSeparator d) = [] := by
        cases rest with
        | nil => rfl
        | cons d ds => simp [isSeparator_iff_mem.mpr (hrest d rfl)]
      have hdrop : rest.dropWhile (fun d => !isSeparator d) = rest := by
        cases rest with
        | nil => rfl
        | cons d ds => simp [isSeparator_iff_mem.mpr (hrest d rfl)]
      rw [List.cons_append, runs, if_neg hc, List.takeWhile_append_of_pos hcs,
        List.dropWhile_append_of_pos hcs, htake, hdrop, List.append_nil]

/-- Runs that are joined by single spaces come apart again. -/
theorem runs_intercalate {rs : List (List Char)} (h : forall r, r ∈ rs -> IsRun r) :
    runs ([' '].intercalate rs) = rs := by
  induction rs with
  | nil =>
      rw [List.intercalate_nil, runs]
  | cons r rs ih =>
      have hr := h r List.mem_cons_self
      have hrs := ih fun s hs => h s (List.mem_cons_of_mem r hs)
      cases rs with
      | nil =>
          have hend : runs (r ++ []) = r :: runs [] := by
            refine runs_append hr ?_
            intro c hc
            cases hc
          rw [List.intercalate_singleton]
          rw [List.append_nil, runs] at hend
          exact hend
      | cons s ss =>
          rw [List.intercalate_cons_cons, List.append_assoc, runs_append hr, List.singleton_append,
            runs_separator List.mem_cons_self, hrs]
          intro c hc
          cases hc
          exact List.mem_cons_self

theorem isRun_byte (b : UInt8) : IsRun (Hex.byte b) := by
  have hdigit : forall n, n < 16 -> Hex.digit n ∉ separatorChars := by decide
  have hb := b.toNat_lt
  refine ⟨List.cons_ne_nil _ _, ?_⟩
  intro c hc
  have hpair : c = Hex.digit (b.toNat / 16) ∨ c = Hex.digit (b.toNat % 16) := by
    simpa [Hex.byte] using hc
  rcases hpair with rfl | rfl
  · exact hdigit _ (by omega)
  · exact hdigit _ (by omega)

theorem byte?_byte (b : UInt8) : byte? (Hex.byte b) = some b := by
  have hb := b.toNat_lt
  have hhigh : Hex.value? (Hex.digit (b.toNat / 16)) = some (b.toNat / 16) :=
    Numeral.value?_digit (by omega)
  have hlow : Hex.value? (Hex.digit (b.toNat % 16)) = some (b.toNat % 16) :=
    Numeral.value?_digit (by omega)
  rw [Hex.byte, byte?, hhigh, hlow]
  show some (16 * (b.toNat / 16) + b.toNat % 16).toUInt8 = some b
  rw [Nat.div_add_mod]
  exact congrArg some UInt8.ofNat_toNat

theorem mapM_byte?_byte (bytes : List UInt8) : (bytes.map Hex.byte).mapM byte? = some bytes := by
  induction bytes with
  | nil => rfl
  | cons b bytes ih =>
      rw [List.map_cons, List.mapM_cons, byte?_byte, ih]
      rfl

/-- What is written from bytes is read as these bytes. -/
theorem decode?_encode (bytes : List UInt8) : decode? (encode bytes) = some bytes := by
  have hruns : forall r, r ∈ bytes.map Hex.byte -> IsRun r := by
    intro r hr
    rcases List.mem_map.mp hr with ⟨b, _, rfl⟩
    exact isRun_byte b
  rw [decode?, encode, String.toList_ofList, runs_intercalate hruns]
  exact mapM_byte?_byte bytes

end HexText
end Asm65
