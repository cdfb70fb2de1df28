import Asm65.Proofs.Numbering

/-!
# Changes of layout

Small and capital letters, comments, carriage returns before line feeds, the blanks between
lexemes and lines without a statement are a matter of layout.  A source in another layout is
the same program.  If it fails, then in the same way, and at the place to which the text has
moved.
-/

namespace Asm65

/-!
# Capitals
-/

namespace Text

theorem pieces_upperChars (cs : List Char) :
    pieces (upperChars cs) = (pieces cs).map upperChars := by
  have hfeed {line : List Char} (h : '\n' ∉ line) : '\n' ∉ upperChars line := by
    intro hmem
    rcases List.mem_map.mp hmem with ⟨c, hc, hupper⟩
    rw [eq_of_toUpper_eq hupper (by decide)] at hc
    exact h hc
  induction cs using lines_induction with
  | last line hline =>
      rw [pieces_last hline, pieces_last (hfeed hline), List.map_singleton]
  | more line rest hline ih =>
      have hupper : upperChars (line ++ '\n' :: rest) =
          upperChars line ++ '\n' :: upperChars rest :=
        List.map_append
      rw [hupper, pieces_line (hfeed hline), pieces_line hline, ih, List.map_cons]

end Text

namespace Source

theorem stripCommentChars_upperChars (line : List Char) :
    stripCommentChars (Text.upperChars line) = Text.upperChars (stripCommentChars line) := by
  have hcomment : (· != ';') ∘ Char.toUpper = (· != ';') := by
    funext c
    by_cases hc : c = ';'
    · rw [hc]
      rfl
    · have hupper : c.toUpper ≠ ';' := fun h => hc (Text.eq_of_toUpper_eq h (by decide))
      rw [Function.comp_apply, bne_iff_ne.mpr hc, bne_iff_ne.mpr hupper]
  rw [stripCommentChars, Text.upperChars, List.takeWhile_map, hcomment]
  rfl

theorem scanned_upperChars (line : List Char) : scanned (Text.upperChars line) = scanned line := by
  rw [scanned, stripCommentChars_upperChars, Text.upperChars_upperChars, scanned]

theorem ofSource_upper (source : String) :
    Program.ofSource (Text.upper source) = Program.ofSource source := by
  rw [ofSource_eq_pieces, ofSource_eq_pieces, Text.upper, String.toList_ofList,
    Text.pieces_upperChars]
  apply ofNumbered_congr
  rw [List.forall₂_map_left_iff, List.forall₂_same]
  intro piece _ number
  rw [reading_eq, reading_eq, scanned_upperChars]

/-!
# Comments
-/

/-- A comment, or nothing. -/
def IsComment (text : String) : Prop :=
  '\n' ∉ text.toList ∧ (text = "" ∨ exists rest, text = ";" ++ rest)

/-- A text that begins with the end of a line. -/
def EndsLine (text : String) : Prop :=
  text = "" ∨ (exists rest, text = "\n" ++ rest) ∨ exists rest, text = "\r\n" ++ rest

theorem EndsLine.exists_pieces {after : String} (h : EndsLine after) :
    exists first qs, Text.pieces after.toList = first :: qs ∧
      forall c, c ∈ first -> Token.isSpace c = true := by
  rcases h with rfl | ⟨rest, rfl⟩ | ⟨rest, rfl⟩
  · exact ⟨[], [], Text.pieces_last List.not_mem_nil, List.forall_mem_nil _⟩
  · refine ⟨[], Text.pieces rest.toList, ?_, List.forall_mem_nil _⟩
    rw [String.toList_append]
    exact Text.pieces_feed rest.toList
  · refine ⟨['\r'], Text.pieces rest.toList, ?_, List.forall_mem_singleton.mpr rfl⟩
    rw [String.toList_append]
    exact Text.pieces_return rest.toList

theorem IsComment.reading_append {comment : String} (h : IsComment comment) {spaces : List Char}
    (hspaces : forall c, c ∈ spaces -> Token.isSpace c = true) (line : List Char) (number : Nat) :
    reading (line ++ (comment.toList ++ spaces), number) = reading (line, number) := by
  rcases h.right with rfl | ⟨rest, rfl⟩
  · exact reading_append_blank hspaces line number
  · rw [String.toList_append, List.append_assoc]
    exact reading_append_comment line _ number

theorem ofSource_comment {before comment comment' after : String} (h : IsComment comment)
    (h' : IsComment comment') (hafter : EndsLine after) :
    Program.ofSource (before ++ comment' ++ after) =
      Program.ofSource (before ++ comment ++ after) := by
  rcases Text.exists_pieces_concat before.toList with ⟨ps, opened, hbefore⟩
  rcases hafter.exists_pieces with ⟨first, qs, hfirst, hspaces⟩
  rw [ofSource_eq_pieces, ofSource_eq_pieces]
  simp only [String.toList_append]
  rw [Text.pieces_between hbefore h'.left hfirst, Text.pieces_between hbefore h.left hfirst]
  apply ofNumbered_congr
  apply List.rel_append (List.forall₂_same.mpr fun _ _ _ => rfl)
  refine .cons ?_ (List.forall₂_same.mpr fun _ _ _ => rfl)
  intro number
  rw [h.reading_append hspaces, h'.reading_append hspaces]

end Source

/-!
# Line ends
-/

/-- The second text is the first with a carriage return before some of its line feeds. -/
inductive Text.AddsReturns : List Char -> List Char -> Prop where
  | same (cs : List Char) : AddsReturns cs cs
  | line (front : List Char) {rest rest' : List Char} (h : AddsReturns rest rest') :
      AddsReturns (front ++ '\n' :: rest) (front ++ '\r' :: '\n' :: rest')

namespace Source

theorem reads_pieces_addsReturns {cs ds : List Char} (h : Text.AddsReturns cs ds) :
    List.Forall₂ (fun line line' => forall number,
      reading (line, number) = reading (line', number)) (Text.pieces cs) (Text.pieces ds) := by
  induction h with
  | same cs => exact List.forall₂_same.mpr fun _ _ _ => rfl
  | @line front rest rest' _ ih =>
      rcases Text.exists_pieces_concat front with ⟨ps, opened, hfront⟩
      rw [Text.pieces_append hfront (Text.pieces_feed rest),
        Text.pieces_append hfront (Text.pieces_return rest')]
      apply List.rel_append (List.forall₂_same.mpr fun _ _ _ => rfl)
      refine .cons ?_ ih
      intro number
      rw [List.append_nil, reading_append_blank (List.forall_mem_singleton.mpr rfl)]

theorem ofSource_addsReturns {source target : String}
    (h : Text.AddsReturns source.toList target.toList) :
    Program.ofSource target = Program.ofSource source := by
  rw [ofSource_eq_pieces, ofSource_eq_pieces]
  exact (ofNumbered_congr (reads_pieces_addsReturns h)).symm

end Source

/-!
# Blanks
-/

namespace LexError

/--
The failure when, from the given column of the given line on, `new` characters stand in the
place of `old` others.  It is moved if it is behind them on their line.
-/
def moveColumn (line column old new : Nat) (e : LexError) : LexError :=
  if e.line = line ∧ column + old ≤ e.column then { e with column := e.column - old + new } else e

theorem moveColumn_of_lt {line column old new : Nat} {e : LexError} (h : e.column < column + old) :
    e.moveColumn line column old new = e :=
  if_neg fun hmoved => Nat.not_lt.mpr hmoved.right h

theorem moveColumn_of_ne {line column old new : Nat} {e : LexError} (h : e.line ≠ line) :
    e.moveColumn line column old new = e :=
  if_neg fun hmoved => h hmoved.left

theorem moveColumn_shift (line column old new : Nat) (e : LexError) :
    (e.shift line (column + old)).moveColumn line column old new =
      e.shift line (column + new) := by
  have hcolumn : column + old + e.column - old + new = column + new + e.column := by omega
  rw [moveColumn, shift, if_pos ⟨rfl, Nat.le_add_right _ _⟩, shift, hcolumn]

end LexError

namespace Source

/-- A run of spaces in a line may be replaced by another; what stands behind it is moved. -/
theorem reading_respace {run run' : List Char}
    (hrun : forall c, c ∈ run -> Token.isSpace c = true) (hne : run ≠ [])
    (hrun' : forall c, c ∈ run' -> Token.isSpace c = true) (hne' : run' ≠ [])
    (line rest : List Char) (number : Nat) :
    reading (line ++ (run' ++ rest), number) =
      (reading (line ++ (run ++ rest), number)).mapError
        (LexError.moveColumn number line.length run.length run'.length) := by
  rw [reading_eq, reading_eq]
  by_cases hmem : ';' ∈ line
  · rw [scanned_append_of_mem hmem, scanned_append_of_mem hmem]
    cases hscan : Token.scan number 0 (scanned line) with
    | ok ts => rfl
    | error e =>
        have hcolumn := (Token.bounds_of_scan hscan).right.right
        have hlength := length_scanned_le line
        exact congrArg Except.error (LexError.moveColumn_of_lt (by omega)).symm
  · have hlength := length_scanned hmem
    rcases scanned_spaces hrun with ⟨hcomment, hscanned⟩
    rcases scanned_spaces hrun' with ⟨hcomment', hscanned'⟩
    rw [scanned_append hmem, scanned_append hmem, scanned_append hcomment,
      scanned_append hcomment', hscanned, hscanned', Token.scan_append_spaces hrun hne,
      Token.scan_append_spaces hrun' hne', hlength]
    cases hscan : Token.scan number 0 (scanned line) with
    | error e =>
        have hcolumn := (Token.bounds_of_scan hscan).right.right
        exact congrArg Except.error (LexError.moveColumn_of_lt (by omega)).symm
    | ok ts =>
        have hshift (k : Nat) : Token.scan number k (scanned rest) =
            (Token.scan number 0 (scanned rest)).mapError (LexError.shift number k) :=
          Token.scan_shift number number k 0 (scanned rest)
        rw [Nat.zero_add, hshift (line.length + run.length), hshift (line.length + run'.length)]
        cases Token.scan number 0 (scanned rest) with
        | ok us => rfl
        | error e => exact congrArg Except.error (e.moveColumn_shift _ _ _ _).symm

/-- What one line reads as may be changed up to where it fails, if no other line fails there. -/
theorem ofNumbered_change {ps qs : List (List Char)} {line line' : List Char}
    {f : LexError -> LexError} (hother : forall e : LexError, e.line ≠ ps.length + 1 -> f e = e)
    (hline : reading (line', ps.length + 1) = (reading (line, ps.length + 1)).mapError f) :
    ofNumbered ((ps ++ line' :: qs).zipIdx 1) =
      (ofNumbered ((ps ++ line :: qs).zipIdx 1)).mapError (SourceError.move f id) := by
  apply ofNumbered_move
  simp only [Statement.renumbered_id, Except.map_id]
  rw [List.zipIdx_append, List.zipIdx_append, List.zipIdx_cons, List.zipIdx_cons,
    Nat.add_comm 1 ps.length]
  have hothers {xs : List (List Char × Nat)} (h : forall x, x ∈ xs -> x.2 ≠ ps.length + 1) :
      List.Forall₂ (fun x y => reading y = (reading x).mapError f) xs xs := by
    rw [List.forall₂_same]
    intro x hx
    cases hreading : reading x with
    | ok r => rfl
    | error e =>
        have hne := hother e (line_of_reading hreading ▸ h x hx)
        exact congrArg Except.error hne.symm
  apply List.rel_append
  · apply hothers
    intro x hx
    have hlt := List.snd_lt_of_mem_zipIdx hx
    omega
  · refine .cons hline (hothers ?_)
    intro x hx
    have hle := List.le_snd_of_mem_zipIdx hx
    omega

end Source

namespace Text

/-- The number of the line in which a text breaks off. -/
def endLine (s : String) : Nat :=
  (pieces s.toList).length

/-- The column in which a text breaks off. -/
def endColumn (s : String) : Nat :=
  ((pieces s.toList).getLastD []).length

end Text

namespace Source

/-- One or more spaces and tabs. -/
def IsBlankRun (run : String) : Prop :=
  run.toList ≠ [] ∧ forall c, c ∈ run.toList -> c = ' ' ∨ c = '\t'

theorem IsBlankRun.isSpace {run : String} (h : IsBlankRun run) :
    forall c, c ∈ run.toList -> Token.isSpace c = true := by
  intro c hc
  rcases h.right c hc with rfl | rfl <;> rfl

theorem IsBlankRun.not_mem {run : String} (h : IsBlankRun run) : '\n' ∉ run.toList := by
  intro hmem
  rcases h.right _ hmem with heq | heq <;> cases heq

theorem ofSource_respace {before run run' after : String} (h : IsBlankRun run)
    (h' : IsBlankRun run') :
    Program.ofSource (before ++ run' ++ after) =
      (Program.ofSource (before ++ run ++ after)).mapError
        (SourceError.move (LexError.moveColumn (Text.endLine before) (Text.endColumn before)
          run.length run'.length) id) := by
  rcases Text.exists_pieces_concat before.toList with ⟨ps, opened, hbefore⟩
  rcases Text.exists_pieces_cons after.toList with ⟨first, qs, hafter⟩
  have hline : Text.endLine before = ps.length + 1 := by
    rw [Text.endLine, hbefore, List.length_append, List.length_singleton]
  have hcolumn : Text.endColumn before = opened.length := by
    rw [Text.endColumn, hbefore, List.getLastD_concat]
  rw [ofSource_eq_pieces, ofSource_eq_pieces]
  simp only [String.toList_append]
  rw [Text.pieces_between hbefore h'.not_mem hafter, Text.pieces_between hbefore h.not_mem hafter,
    hline, hcolumn]
  apply ofNumbered_change
  · intro e hne
    exact LexError.moveColumn_of_ne hne
  · exact reading_respace h.isSpace h.left h'.isSpace h'.left opened first (ps.length + 1)

end Source

/-!
# Empty lines
-/

namespace Text

/-- The lines of a text without their line feeds.  No line is behind the last line feed. -/
def rows (s : String) : List (List Char) :=
  if (pieces s.toList).getLast? = some [] then (pieces s.toList).dropLast else pieces s.toList

/-- Puts in the lines `gap 0` above the first line, `gap 1` above the second, and so on. -/
def insertLines (gap : Nat -> List (List Char)) (k : Nat) : List (List Char) -> List (List Char)
  | [] => gap k
  | line :: ls => gap k ++ line :: insertLines gap (k + 1) ls

/-- How many lines are inserted above the line with the given number. -/
def insertedAbove (gap : Nat -> List (List Char)) (number : Nat) : Nat :=
  ((List.range number).map fun k => (gap k).length).sum

theorem insertedAbove_succ (gap : Nat -> List (List Char)) (k : Nat) :
    insertedAbove gap (k + 1) = insertedAbove gap k + (gap k).length := by
  simp [insertedAbove, List.range_succ]

end Text

namespace Source

/-- Nothing but spaces before the comment, if there is one. -/
def IsBlankLine (line : List Char) : Prop :=
  exists code, IsCode line code ∧ forall c, c ∈ code -> c ∈ Lexeme.spaceChars

def isBlankLine (line : List Char) : Bool :=
  (stripCommentChars line).all Token.isSpace

theorem isBlankLine_iff {line : List Char} : isBlankLine line = true <-> IsBlankLine line := by
  simp only [isBlankLine, IsBlankLine, isCode_iff, exists_eq_left', List.all_eq_true,
    Shape.isSpace_iff_mem]

theorem reading_blankLine {line : List Char} (h : isBlankLine line = true) (number : Nat) :
    reading (line, number) = .ok (.ok ⟨number, none, none⟩) := by
  have hstrip : scanned (stripCommentChars line) = scanned line := by
    rw [scanned, stripCommentChars, stripCommentChars, List.takeWhile_idem]
    rfl
  have hempty : reading ([] ++ stripCommentChars line, number) = reading ([], number) :=
    reading_append_blank (List.all_eq_true.mp h) [] number
  rw [reading_eq, <- hstrip, <- reading_eq]
  exact hempty.trans (Program.reading_empty number)

theorem ofReadings_empty (before after : List (Except StatementError Statement)) (number : Nat) :
    Program.ofReadings (before ++ .ok ⟨number, none, none⟩ :: after) =
      Program.ofReadings (before ++ after) := by
  unfold Program.ofReadings
  rw [List.foldlM_append, List.foldlM_append]
  cases before.foldlM (fun s r => r >>= State.step s) State.start with
  | error e => rfl
  | ok s => rfl

/-- A blank line can be left out, if the other lines keep their numbers. -/
theorem ofNumbered_blank {line : List Char} (h : isBlankLine line = true) (number : Nat)
    (before after : List (List Char × Nat)) :
    ofNumbered (before ++ (line, number) :: after) = ofNumbered (before ++ after) := by
  unfold ofNumbered
  rw [List.mapM_append, List.mapM_append, List.mapM_cons, reading_blankLine h]
  cases before.mapM reading with
  | error e => rfl
  | ok rs =>
      cases after.mapM reading with
      | error e => rfl
      | ok rs' =>
          exact congrArg (Except.mapError SourceError.statement) (ofReadings_empty rs rs' number)

theorem ofNumbered_filter (before xs : List (List Char × Nat)) :
    ofNumbered (before ++ xs.filter fun x => !isBlankLine x.1) = ofNumbered (before ++ xs) := by
  induction xs generalizing before with
  | nil => rfl
  | cons x xs ih =>
      cases hx : isBlankLine x.1 with
      | true => rw [List.filter_cons_of_neg (by simp [hx]), ih, ofNumbered_blank hx]
      | false =>
          rw [List.filter_cons_of_pos (by simp [hx]), List.append_cons, ih, <- List.append_cons]

theorem ofNumbered_of_filter_eq {xs ys : List (List Char × Nat)}
    (h : (xs.filter fun x => !isBlankLine x.1) = ys.filter fun x => !isBlankLine x.1) :
    ofNumbered xs = ofNumbered ys := by
  have hfilter (zs : List (List Char × Nat)) :
      ofNumbered (zs.filter fun x => !isBlankLine x.1) = ofNumbered zs :=
    ofNumbered_filter [] zs
  rw [<- hfilter xs, h, hfilter]

theorem filter_insertLines {gap : Nat -> List (List Char)}
    (hgap : forall k line, line ∈ gap k -> isBlankLine line = true) (ls : List (List Char))
    (k : Nat) :
    ((Text.insertLines gap k ls).zipIdx (k + 1 + Text.insertedAbove gap k)).filter
        (fun x => !isBlankLine x.1) =
      ((ls.zipIdx (k + 1)).map fun x => (x.1, x.2 + Text.insertedAbove gap x.2)).filter
        (fun x => !isBlankLine x.1) := by
  have hnone (k start : Nat) :
      ((gap k).zipIdx start).filter (fun x => !isBlankLine x.1) = [] := by
    rw [List.filter_eq_nil_iff]
    intro x hx
    simp [hgap k x.1 (List.fst_mem_of_mem_zipIdx hx)]
  induction ls generalizing k with
  | nil => exact hnone k _
  | cons line ls ih =>
      have hnumber : k + 1 + Text.insertedAbove gap k + (gap k).length =
          k + 1 + Text.insertedAbove gap (k + 1) := by
        rw [Text.insertedAbove_succ, Nat.add_assoc]
      have hnext : k + 1 + Text.insertedAbove gap (k + 1) + 1 =
          k + 1 + 1 + Text.insertedAbove gap (k + 1) := by
        omega
      rw [Text.insertLines, List.zipIdx_append, List.filter_append, hnone, List.nil_append,
        List.zipIdx_cons, List.zipIdx_cons, List.map_cons, List.filter_cons, List.filter_cons,
        hnumber, hnext, ih]

theorem ofSource_eq_rows (source : String) :
    Program.ofSource source = ofNumbered ((Text.rows source).zipIdx 1) := by
  rw [ofSource_eq_pieces, Text.rows]
  split
  · next hlast =>
      rcases List.getLast?_eq_some_iff.mp hlast with ⟨ps, hpieces⟩
      have hblank := @ofNumbered_blank [] rfl (1 + ps.length) (ps.zipIdx 1) []
      rw [hpieces, List.dropLast_concat, List.zipIdx_append]
      rwa [List.append_nil] at hblank
  · rfl

theorem ofSource_insertLines {gap : Nat -> List (List Char)}
    (hgap : forall k line, line ∈ gap k -> IsBlankLine line) {source target : String}
    (h : Text.rows target = Text.insertLines gap 0 (Text.rows source)) :
    Program.ofSource target =
      (Program.ofSource source).mapError
        (SourceError.move (LexError.renumber fun number => number + Text.insertedAbove gap number)
          fun number => number + Text.insertedAbove gap number) := by
  have hkept : ofNumbered ((Text.insertLines gap 0 (Text.rows source)).zipIdx 1) =
      ofNumbered (((Text.rows source).zipIdx 1).map fun x =>
        (x.1, x.2 + Text.insertedAbove gap x.2)) :=
    ofNumbered_of_filter_eq (filter_insertLines
      (fun k line hline => isBlankLine_iff.mpr (hgap k line hline)) (Text.rows source) 0)
  rw [ofSource_eq_rows, ofSource_eq_rows, h, hkept]
  apply ofNumbered_move
  rw [List.forall₂_map_right_iff, List.forall₂_same]
  intro x _
  exact reading_renumber (fun number => number + Text.insertedAbove gap number) x.1 x.2

/-!
# Layouts
-/

/--
The second text is the first in another layout, and `f` takes a failure of the first to the
place where it is in the second.
-/
inductive Relayout : String -> String -> (SourceError -> SourceError) -> Prop where
  -- any letters may change between small and capital
  | capitals {source target : String}
      (h : source.toList.map Char.toUpper = target.toList.map Char.toUpper) :
      Relayout source target id
  -- a comment is added, removed or replaced at the end of a line
  | comment {before comment comment' after : String} (h : IsComment comment)
      (h' : IsComment comment') (hafter : EndsLine after) :
      Relayout (before ++ comment ++ after) (before ++ comment' ++ after) id
  | returns {source target : String} (h : Text.AddsReturns source.toList target.toList) :
      Relayout source target id
  -- what stands behind the blanks on their line is moved with the text
  | blanks {before run run' after : String} (h : IsBlankRun run) (h' : IsBlankRun run') :
      Relayout (before ++ run ++ after) (before ++ run' ++ after)
        (.move (.moveColumn (Text.endLine before) (Text.endColumn before) run.length
          run'.length) id)
  -- a failure comes as many lines later as blank lines are put in above its line
  | lines {source target : String} {gap : Nat -> List (List Char)}
      (hgap : forall k line, line ∈ gap k -> IsBlankLine line)
      (h : Text.rows target = Text.insertLines gap 0 (Text.rows source)) :
      Relayout source target
        (.move (.renumber fun number => number + Text.insertedAbove gap number)
          fun number => number + Text.insertedAbove gap number)
  | trans {source middle target : String} {f g : SourceError -> SourceError}
      (h : Relayout source middle f) (h' : Relayout middle target g) :
      Relayout source target (g ∘ f)

/-- In another layout a source is the same program, or fails as before at the moved place. -/
theorem ofSource_relayout {source target : String} {f : SourceError -> SourceError}
    (h : Relayout source target f) :
    Program.ofSource target = (Program.ofSource source).mapError f := by
  induction h with
  | @capitals source target h =>
      have hupper : Text.upper source = Text.upper target := congrArg String.ofList h
      rw [<- ofSource_upper, <- hupper, ofSource_upper, mapError_id]
  | comment h h' hafter => rw [ofSource_comment h h' hafter, mapError_id]
  | returns h => rw [ofSource_addsReturns h, mapError_id]
  | blanks h h' => exact ofSource_respace h h'
  | lines hgap h => exact ofSource_insertLines hgap h
  | trans _ _ ih ih' => rw [ih', ih, mapError_mapError]

/-- A title above the first line, and a blank line above the second. -/
def titleAndGap : Nat -> List (List Char)
  | 0 => ["; title".toList]
  | 1 => ["  ".toList]
  | _ => []

theorem unreadableOperand_moved :
    Program.ofSource "nop\nlda ?" = .error (.lex ⟨.invalidSymbol, 2, 4⟩) ∧
      Program.ofSource "; title\nNOP; start\r\n  \nlda\t  ?" =
        .error (.lex ⟨.invalidSymbol, 4, 6⟩) := by
  have hcapitals : Relayout "nop\nlda ?" "NOP\nlda ?" id := .capitals (by decide +kernel)
  have hcomment : Relayout "NOP\nlda ?" "NOP; start\nlda ?" id :=
    @Relayout.comment "NOP" "" "; start" "\nlda ?" ⟨by decide +kernel, Or.inl rfl⟩
      ⟨by decide +kernel, Or.inr ⟨" start", by decide +kernel⟩⟩
      (Or.inr (Or.inl ⟨"lda ?", by decide +kernel⟩))
  have hreturns : Relayout "NOP; start\nlda ?" "NOP; start\r\nlda ?" id :=
    .returns (.line "NOP; start".toList (.same "lda ?".toList))
  have hblanks := @Relayout.blanks "NOP; start\r\nlda" " " "\t  " "?"
    ⟨by decide +kernel, by simp⟩ ⟨by decide +kernel, by simp⟩
  have hblank : forall k line, line ∈ titleAndGap k -> isBlankLine line = true
    | 0 => by decide +kernel
    | 1 => by decide +kernel
    | _ + 2 => List.forall_mem_nil _
  have hgap : forall k line, line ∈ titleAndGap k -> IsBlankLine line :=
    fun k line hline => isBlankLine_iff.mp (hblank k line hline)
  have hlines := @Relayout.lines "NOP; start\r\nlda\t  ?"
    "; title\nNOP; start\r\n  \nlda\t  ?" titleAndGap hgap (by decide +kernel)
  have hread : Program.ofSource "nop\nlda ?" = .error (.lex ⟨.invalidSymbol, 2, 4⟩) := by
    decide +kernel
  refine ⟨hread, ?_⟩
  rw [ofSource_relayout ((((hcapitals.trans hcomment).trans hreturns).trans hblanks).trans hlines),
    hread]
  decide +kernel

end Source
end Asm65
