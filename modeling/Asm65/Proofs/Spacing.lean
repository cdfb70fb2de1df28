import Asm65.Proofs.Lexemes

/-!
# Spaces between lexemes

No lexeme goes over a space.  So a line with a space in it is read in two parts, first what
stands before the space and then what stands behind it.  How many spaces there are, and which
of the four, only shows in the columns of failures behind them.
-/

namespace Asm65

/-!
# Where scans fail
-/

/-- The same failure on the line `line`, and `k` columns further on. -/
def LexError.shift (line k : Nat) (e : LexError) : LexError :=
  ⟨e.kind, line, k + e.column⟩

namespace Token

/-- A scan fails on its line, at one of the characters that it has been given. -/
theorem bounds_of_scan {line column : Nat} {cs : List Char} {e : LexError}
    (h : scan line column cs = .error e) :
    e.line = line ∧ column ≤ e.column ∧ e.column < column + cs.length := by
  fun_induction scan line column cs generalizing e with
  | case1 column =>
      cases h
  | case2 column c cs hspace ih =>
      rcases ih h with ⟨hline, hlow, hhigh⟩
      refine ⟨hline, by omega, ?_⟩
      rw [List.length_cons]
      omega
  | case3 column c cs hspace hfirst =>
      cases h
      exact ⟨rfl, le_rfl, by simp⟩
  | case4 column c cs hspace shape hfirst =>
      cases h
      exact ⟨rfl, le_rfl, by simp⟩
  | case5 column c cs hspace shape hfirst =>
      rename_i body token htoken ih
      rcases ih (map_eq_error_iff.mp h) with ⟨hline, hlow, hhigh⟩
      have hlength : body.length + (cs.dropWhile shape.continues).length = cs.length := by
        rw [<- List.length_append, List.takeWhile_append_dropWhile]
      refine ⟨hline, by omega, ?_⟩
      rw [List.length_cons]
      omega

/-- Where the line stands, and where it begins, is only told in a failure. -/
theorem scan_shift (line line' k column : Nat) (cs : List Char) :
    scan line' (k + column) cs = (scan line column cs).mapError (LexError.shift line' k) := by
  fun_induction scan line column cs with
  | case1 column =>
      rw [scan]
      rfl
  | case2 column c cs hspace ih =>
      rw [scan, if_pos hspace, Nat.add_assoc, ih]
  | case3 column c cs hspace hfirst =>
      rw [scan, if_neg hspace, hfirst]
      rfl
  | case4 column c cs hspace shape hfirst body kind hkind =>
      rw [scan, if_neg hspace, hfirst]
      simp only [show shape.token c (cs.takeWhile shape.continues) = .error kind from hkind]
      rfl
  | case5 column c cs hspace shape hfirst body token htoken ih =>
      have hcolumn : k + column + 1 + body.length = k + (column + 1 + body.length) := by omega
      rw [scan, if_neg hspace, hfirst]
      simp only [show shape.token c (cs.takeWhile shape.continues) = .ok token from htoken]
      rw [hcolumn, ih]
      cases scan line (column + 1 + body.length) (cs.dropWhile shape.continues) with
      | error e => rfl
      | ok ts => rfl

/-!
# Scans of two parts
-/

theorem continues_of_isSpace (shape : Shape) {w : Char} (h : isSpace w = true) :
    shape.continues w = false := by
  simp only [isSpace, Bool.or_eq_true, beq_iff_eq] at h
  cases shape <;> rcases h with ((rfl | rfl) | rfl) | rfl <;> rfl

/-- What is taken while it continues is not taken past a character that does not. -/
theorem span_append_stop {p : Char -> Bool} {w : Char} (hw : p w = false) (cs ds : List Char) :
    (cs ++ w :: ds).takeWhile p = cs.takeWhile p ∧
      (cs ++ w :: ds).dropWhile p = cs.dropWhile p ++ w :: ds := by
  induction cs with
  | nil => simp [hw]
  | cons c cs ih =>
      cases hc : p c with
      | false => simp [hc]
      | true => simp [hc, ih]

/-- The part before a space is read first, as if the line ended there. -/
theorem scan_append_space {w : Char} (hw : isSpace w = true) (line column : Nat)
    (cs ds : List Char) :
    scan line column (cs ++ w :: ds) =
      scan line column cs >>= fun ts =>
        (scan line (column + cs.length + 1) ds).map (ts ++ ·) := by
  fun_induction scan line column cs with
  | case1 column =>
      rw [List.nil_append, scan, if_pos hw, List.length_nil, Nat.add_zero]
      exact (congrFun Except.map_id _).symm
  | case2 column c cs hspace ih =>
      have hcolumn : column + (c :: cs).length + 1 = column + 1 + cs.length + 1 := by
        rw [List.length_cons]
        omega
      rw [List.cons_append, scan, if_pos hspace, ih, hcolumn]
  | case3 column c cs hspace hfirst =>
      rw [List.cons_append, scan, if_neg hspace, hfirst]
      rfl
  | case4 column c cs hspace shape hfirst body kind hkind =>
      have hspan := span_append_stop (continues_of_isSpace shape hw) cs ds
      rw [List.cons_append, scan, if_neg hspace, hfirst]
      simp only [hspan.left]
      rw [show shape.token c (cs.takeWhile shape.continues) = .error kind from hkind]
      rfl
  | case5 column c cs hspace shape hfirst body token htoken ih =>
      have hspan := span_append_stop (continues_of_isSpace shape hw) cs ds
      have hlength : body.length + (cs.dropWhile shape.continues).length = cs.length := by
        rw [<- List.length_append, List.takeWhile_append_dropWhile]
      have hcolumn : column + (c :: cs).length + 1 =
          column + 1 + body.length + (cs.dropWhile shape.continues).length + 1 := by
        rw [List.length_cons]
        omega
      rw [List.cons_append, scan, if_neg hspace, hfirst]
      simp only [hspan.left, hspan.right]
      rw [show shape.token c (cs.takeWhile shape.continues) = .ok token from htoken, hcolumn]
      simp only
      rw [ih]
      cases scan line (column + 1 + body.length) (cs.dropWhile shape.continues) with
      | error e => rfl
      | ok ts =>
          cases scan line (column + 1 + body.length +
              (cs.dropWhile shape.continues).length + 1) ds with
          | error e => rfl
          | ok us => rfl

theorem scan_spaces {run : List Char} (hrun : forall c, c ∈ run -> isSpace c = true)
    (line column : Nat) (ds : List Char) :
    scan line column (run ++ ds) = scan line (column + run.length) ds := by
  induction run generalizing column with
  | nil => rfl
  | cons c run ih =>
      rw [List.forall_mem_cons] at hrun
      have hcolumn : column + (c :: run).length = column + 1 + run.length := by
        rw [List.length_cons]
        omega
      rw [List.cons_append, scan, if_pos hrun.left, ih hrun.right, hcolumn]

/-- The part before a run of spaces is read first, and the part behind the run then. -/
theorem scan_append_spaces {run : List Char} (hrun : forall c, c ∈ run -> isSpace c = true)
    (hne : run ≠ []) (line column : Nat) (cs ds : List Char) :
    scan line column (cs ++ (run ++ ds)) =
      scan line column cs >>= fun ts =>
        (scan line (column + cs.length + run.length) ds).map (ts ++ ·) := by
  cases run with
  | nil => exact (hne rfl).elim
  | cons w run =>
      rw [List.forall_mem_cons] at hrun
      have hcolumn : column + cs.length + (w :: run).length =
          column + cs.length + 1 + run.length := by
        rw [List.length_cons]
        omega
      rw [List.cons_append, scan_append_space hrun.left, hcolumn]
      simp only [scan_spaces hrun.right]

/-- Spaces at the end of a line are not seen. -/
theorem scan_append_blank {run : List Char} (hrun : forall c, c ∈ run -> isSpace c = true)
    (line column : Nat) (cs : List Char) :
    scan line column (cs ++ run) = scan line column cs := by
  cases run with
  | nil => rw [List.append_nil]
  | cons w run =>
      have hparts := scan_append_spaces hrun (List.cons_ne_nil w run) line column cs []
      have hnil : scan line (column + cs.length + (w :: run).length) [] = .ok [] :=
        scans_nil line _
      rw [List.append_nil, hnil] at hparts
      rw [hparts]
      cases scan line column cs with
      | error e => rfl
      | ok ts => exact congrArg Except.ok (List.append_nil ts)

end Token
end Asm65
