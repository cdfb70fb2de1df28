import Asm65.Proofs.Reprinting
import Asm65.Proofs.Spacing

/-!
# Lines as they are scanned

A text is cut into lines at its line feeds, in one way only.  What a line reads as depends on
its characters before the comment, in capitals.  Spaces at its end are not seen, and so it makes
no difference whether a carriage return is left there.
-/

namespace Asm65

/-!
# Lines of a text
-/

namespace Text

/--
The lines of a text.  A line feed ends a line, with a carriage return in front of it or without;
a text that ends there has no further line.
-/
inductive AreLines : List Char -> List (List Char) -> Prop where
  | none : AreLines [] []
  | last {line : List Char} : line ≠ [] -> '\n' ∉ line -> AreLines line [line]
  | feed {line rest : List Char} {ls : List (List Char)} :
      '\n' ∉ line -> line.getLast? ≠ some '\r' -> AreLines rest ls ->
        AreLines (line ++ '\n' :: rest) (line :: ls)
  | returned {line rest : List Char} {ls : List (List Char)} :
      '\n' ∉ line -> AreLines rest ls -> AreLines (line ++ '\r' :: '\n' :: rest) (line :: ls)

theorem areLines_lineChars (cs : List Char) : AreLines cs (lineChars cs) := by
  induction cs using lines_induction with
  | last line h =>
      rw [lineChars_last h]
      split
      · next hempty =>
          rw [hempty]
          exact .none
      · next hne => exact .last hne h
  | more line rest h ih =>
      rw [lineChars_line h, dropReturn]
      split
      · next hreturn =>
          rcases List.getLast?_eq_some_iff.mp hreturn with ⟨front, rfl⟩
          rw [List.dropLast_concat, List.append_assoc]
          exact .returned (fun hmem => h (List.mem_append_left _ hmem)) ih
      · next hplain => exact .feed h hplain ih

theorem areLines_iff {cs : List Char} {ls : List (List Char)} :
    AreLines cs ls <-> lineChars cs = ls := by
  constructor
  · intro h
    induction h with
    | none => exact lineChars_last List.not_mem_nil
    | last hne hfeed => rw [lineChars_last hfeed, if_neg hne]
    | feed hfeed hplain _ ih => rw [lineChars_line hfeed, ih, dropReturn, if_neg hplain]
    | @returned line rest ls hfeed _ ih =>
        have hreturn : '\n' ∉ line ++ ['\r'] := by
          rw [List.mem_append]
          exact fun hmem => hmem.elim hfeed (by decide)
        have hline := lineChars_line hreturn rest
        rw [List.append_assoc, List.singleton_append] at hline
        rw [hline, ih, dropReturn, if_pos List.getLast?_concat, List.dropLast_concat]
  · rintro rfl
    exact areLines_lineChars cs

theorem areLines_iff_lines {text : String} {ls : List String} :
    AreLines text.toList (ls.map String.toList) <-> lines text = ls := by
  rw [areLines_iff, lines]
  constructor
  · intro h
    rw [h, List.map_map]
    simp
  · rintro rfl
    rw [List.map_map]
    simp

end Text

/-!
# Scanned lines
-/

namespace Source

theorem stripCommentChars_append_of_mem {cs : List Char} (h : ';' ∈ cs) (ds : List Char) :
    stripCommentChars (cs ++ ds) = stripCommentChars cs := by
  rcases List.append_of_mem h with ⟨front, back, rfl⟩
  have hstop (rest : List Char) := (Token.span_append_stop (p := (· != ';')) (w := ';')
    (by decide) front rest).left
  unfold stripCommentChars
  rw [List.append_assoc, List.cons_append, hstop, hstop]

theorem stripCommentChars_append {cs : List Char} (h : ';' ∉ cs) (ds : List Char) :
    stripCommentChars (cs ++ ds) = cs ++ stripCommentChars ds := by
  apply List.takeWhile_append_of_pos
  intro c hc
  rw [bne_iff_ne]
  rintro rfl
  exact h hc

/-- The characters of a line that are scanned. -/
def scanned (line : List Char) : List Char :=
  Text.upperChars (stripCommentChars line)

theorem length_scanned_le (line : List Char) : (scanned line).length ≤ line.length := by
  rw [scanned, Text.upperChars, List.length_map]
  exact (List.takeWhile_sublist _).length_le

theorem length_scanned {line : List Char} (h : ';' ∉ line) :
    (scanned line).length = line.length := by
  rw [scanned, stripCommentChars_eq_self h, Text.upperChars, List.length_map]

theorem scanned_append_of_mem {cs : List Char} (h : ';' ∈ cs) (ds : List Char) :
    scanned (cs ++ ds) = scanned cs := by
  rw [scanned, stripCommentChars_append_of_mem h, scanned]

theorem scanned_append {cs : List Char} (h : ';' ∉ cs) (ds : List Char) :
    scanned (cs ++ ds) = scanned cs ++ scanned ds := by
  rw [scanned, stripCommentChars_append h, scanned, stripCommentChars_eq_self h, scanned]
  exact List.map_append

theorem scanned_spaces {run : List Char} (h : forall c, c ∈ run -> Token.isSpace c = true) :
    ';' ∉ run ∧ scanned run = run := by
  have hcomment : ';' ∉ run := by
    intro hmem
    cases h ';' hmem
  refine ⟨hcomment, ?_⟩
  rw [scanned, stripCommentChars_eq_self hcomment]
  have hsame : forall c, c ∈ run -> c.toUpper = c := by
    intro c hc
    have hspace := h c hc
    simp only [Token.isSpace, Bool.or_eq_true, beq_iff_eq] at hspace
    rcases hspace with ((rfl | rfl) | rfl) | rfl <;> rfl
  rw [Text.upperChars, List.map_congr_left hsame, List.map_id']

/-- What a line with its number reads as. -/
def reading (x : List Char × Nat) : Except LexError (Except StatementError Statement) :=
  Statement.reading x.2 (ready x.1)

theorem reading_eq (line : List Char) (number : Nat) :
    reading (line, number) =
      (Token.scan number 0 (scanned line)).map fun ts => Statement.ofLine ⟨number, ts⟩ := by
  rw [reading, Statement.reading, TokenLine.ofText, ready, normalize, String.toList_ofList,
    String.toList_ofList, scanned]
  cases Token.scan number 0 (Text.upperChars (stripCommentChars line)) with
  | error e => rfl
  | ok ts => rfl

/-- Spaces at the end of a line are not seen, be they part of a comment or not. -/
theorem reading_append_blank {run : List Char} (h : forall c, c ∈ run -> Token.isSpace c = true)
    (line : List Char) (number : Nat) : reading (line ++ run, number) = reading (line, number) := by
  rw [reading_eq, reading_eq]
  by_cases hmem : ';' ∈ line
  · rw [scanned_append_of_mem hmem]
  · rw [scanned_append hmem, (scanned_spaces h).right, Token.scan_append_blank h]

theorem reading_append_comment (line comment : List Char) (number : Nat) :
    reading (line ++ ';' :: comment, number) = reading (line, number) := by
  have hscanned : scanned (line ++ ';' :: comment) = scanned line := by
    by_cases hmem : ';' ∈ line
    · exact scanned_append_of_mem hmem _
    · have hnil : scanned (';' :: comment) = [] := by
        rw [scanned, stripCommentChars, List.takeWhile_cons_of_neg (by decide)]
        rfl
      rw [scanned_append hmem, hnil, List.append_nil]
  rw [reading_eq, reading_eq, hscanned]

theorem reading_dropReturn (line : List Char) (number : Nat) :
    reading (Text.dropReturn line, number) = reading (line, number) := by
  unfold Text.dropReturn
  split
  · next hlast =>
      rcases List.getLast?_eq_some_iff.mp hlast with ⟨cs, rfl⟩
      rw [List.dropLast_concat, reading_append_blank (List.forall_mem_singleton.mpr rfl)]
  · rfl

theorem line_of_reading {line : List Char} {number : Nat} {e : LexError}
    (h : reading (line, number) = .error e) : e.line = number := by
  rw [reading_eq] at h
  exact (Token.bounds_of_scan (map_eq_error_iff.mp h)).left

end Source
end Asm65
