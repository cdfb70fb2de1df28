import Asm65.Proofs.Flattening
import Asm65.Proofs.Relabelling

/-!
# Numbered lines

A source is cut at its line feeds, and each piece is a line with a number.  A line reads alike
under every number, and the program is made up of what the lines read as.  So the numbers may
be chosen as one likes: they only come back in failures.
-/

namespace Asm65

/-!
# Pieces of a text
-/

namespace Text

/-- What stands between the line feeds of a text. -/
def pieces (cs : List Char) : List (List Char) :=
  cs.splitOn '\n'

theorem pieces_last {line : List Char} (h : '\n' ∉ line) : pieces line = [line] :=
  List.splitOn_eq_singleton h

theorem pieces_line {line : List Char} (h : '\n' ∉ line) (rest : List Char) :
    pieces (line ++ '\n' :: rest) = line :: pieces rest := by
  rw [pieces, List.splitOn_append_cons_self, List.splitOn_eq_singleton h]
  rfl

theorem pieces_feed (rest : List Char) : pieces ('\n' :: rest) = [] :: pieces rest :=
  pieces_line List.not_mem_nil rest

theorem pieces_return (rest : List Char) :
    pieces ('\r' :: '\n' :: rest) = ['\r'] :: pieces rest := by
  have hline : '\n' ∉ ['\r'] := by decide
  exact pieces_line hline rest

theorem exists_pieces_cons (cs : List Char) : exists first after, pieces cs = first :: after :=
  List.exists_cons_of_ne_nil (List.splitOn_ne_nil _ _)

theorem exists_pieces_concat (cs : List Char) : exists before last, pieces cs = before ++ [last] :=
  ⟨_, _, (List.dropLast_concat_getLast (List.splitOn_ne_nil _ _)).symm⟩

theorem not_mem_of_mem_pieces {cs piece : List Char} (h : piece ∈ pieces cs) : '\n' ∉ piece := by
  induction cs using lines_induction with
  | last line hline =>
      rw [pieces_last hline, List.mem_singleton] at h
      rw [h]
      exact hline
  | more line rest hline ih =>
      rw [pieces_line hline, List.mem_cons] at h
      rcases h with rfl | hrest
      · exact hline
      · exact ih hrest

theorem pieces_append_of_not_mem {line : List Char} (h : '\n' ∉ line) {ys first : List Char}
    {after : List (List Char)} (hys : pieces ys = first :: after) :
    pieces (line ++ ys) = (line ++ first) :: after := by
  induction ys using lines_induction with
  | last last hlast =>
      rw [pieces_last hlast] at hys
      cases hys
      exact pieces_last fun hmem => (List.mem_append.mp hmem).elim h hlast
  | more next rest hnext _ =>
      rw [pieces_line hnext] at hys
      cases hys
      rw [<- List.append_assoc]
      exact pieces_line (fun hmem => (List.mem_append.mp hmem).elim h hnext) rest

/-- A text that is continued goes on in its last piece. -/
theorem pieces_append {xs ys last first : List Char} {before after : List (List Char)}
    (hxs : pieces xs = before ++ [last]) (hys : pieces ys = first :: after) :
    pieces (xs ++ ys) = before ++ (last ++ first) :: after := by
  induction xs using lines_induction generalizing before with
  | last line hline =>
      rw [pieces_last hline] at hxs
      cases before with
      | nil =>
          cases hxs
          exact pieces_append_of_not_mem hline hys
      | cons piece before => simp at hxs
  | more line rest hline ih =>
      rw [pieces_line hline] at hxs
      cases before with
      | nil =>
          rcases exists_pieces_cons rest with ⟨piece, more, hrest⟩
          rw [hrest] at hxs
          cases hxs
      | cons piece before =>
          rw [List.cons_append, List.cons.injEq] at hxs
          rw [List.append_assoc, List.cons_append, pieces_line hline, ih hxs.right, hxs.left,
            List.cons_append]

/-- A text without line feeds between two others stands in one piece of the whole. -/
theorem pieces_between {xs mid ys last first : List Char} {before after : List (List Char)}
    (hxs : pieces xs = before ++ [last]) (hmid : '\n' ∉ mid) (hys : pieces ys = first :: after) :
    pieces (xs ++ mid ++ ys) = before ++ (last ++ (mid ++ first)) :: after := by
  rw [List.append_assoc]
  exact pieces_append hxs (pieces_append_of_not_mem hmid hys)

end Text

/-!
# Other numbers
-/

theorem LabelRef.relabel_ofLine (g : Nat -> Nat) (l : LabelRef) : l.relabel (.ofLine g) = l :=
  rfl

theorem Operand.relabel_ofLine (g : Nat -> Nat) (operand : Operand) :
    operand.relabel (.ofLine g) = operand := by
  unfold relabel
  split <;> rfl

theorem Nucleus.relabel_ofLine (g : Nat -> Nat) (n : Nucleus) : n.relabel (.ofLine g) = n := by
  cases n with
  | directive d => rfl
  | instruction i =>
      rcases i with ⟨mnemonic, operand, opcode, encoded⟩
      simp only [relabel, Instruction.relabel, Operand.relabel_ofLine]

theorem Statement.relabel_ofLine (g : Nat -> Nat) (st : Statement) :
    st.relabel (.ofLine g) = { st with line := g st.line } := by
  have hlabel : LabelRef.relabel (.ofLine g) = id := funext fun l => l.relabel_ofLine g
  have hnucleus : Nucleus.relabel (.ofLine g) = id := funext fun n => n.relabel_ofLine g
  rw [relabel, hlabel, hnucleus, Option.map_id, Option.map_id]
  rfl

theorem StatementError.relabel_ofLine (g : Nat -> Nat) (e : StatementError) :
    e.relabel (.ofLine g) = { e with line := g e.line } := by
  rcases e with ⟨kind, line, token⟩
  cases kind <;> rfl

theorem Program.relabel_ofLine (g : Nat -> Nat) {p : Program} (h : p.symbols.pending = #[]) :
    p.relabel (.ofLine g) = p := by
  rcases p with ⟨image, labels, pending⟩
  cases h
  have hlabels : labels.map (fun e => ((Relabelling.ofLine g).name e.1, e.2)) = labels :=
    List.map_id' labels
  simp only [relabel, Symbols.relabel, hlabels, Array.map_empty]

/-- What a line matters when it has another number. -/
def Statement.renumbered (g : Nat -> Nat) (r : Except StatementError Statement) :
    Except StatementError Statement :=
  (r.map (Statement.relabel (.ofLine g))).mapError (StatementError.relabel (.ofLine g))

theorem Statement.renumbered_id : Statement.renumbered id = id := by
  funext r
  cases r with
  | ok st => exact congrArg Except.ok (st.relabel_ofLine id)
  | error e => exact congrArg Except.error (e.relabel_ofLine id)

theorem Statement.ofTokens_renumber (g : Nat -> Nat) (number : Nat) (ts : List Token) :
    ofTokens (g number) ts = (ofTokens number ts).map (relabel (.ofLine g)) := by
  unfold ofTokens
  cases Rest.definition ⟨1, ts⟩ with
  | error f => rfl
  | ok first =>
      show (first.2.nucleus >>= _) = (first.2.nucleus >>= _).map _
      cases first.2.nucleus with
      | error f => rfl
      | ok second =>
          show (second.2.expectEnd >>= _) = (second.2.expectEnd >>= _).map _
          cases second.2.expectEnd with
          | error f => rfl
          | ok _ => exact congrArg Except.ok (relabel_ofLine g ⟨number, first.1, second.1⟩).symm

theorem Statement.ofLine_renumber (g : Nat -> Nat) (number : Nat) (ts : List Token) :
    ofLine ⟨g number, ts⟩ = renumbered g (ofLine ⟨number, ts⟩) := by
  unfold ofLine renumbered
  rw [ofTokens_renumber]
  cases ofTokens number ts with
  | ok st => rfl
  | error f => exact congrArg Except.error ((f.onLine number).relabel_ofLine g).symm

theorem Program.pending_of_ofReadings {rs : List (Except StatementError Statement)} {p : Program}
    (h : ofReadings rs = .ok p) : p.symbols.pending = #[] := by
  rcases bind_eq_ok_iff.mp h with ⟨s, _, hfinish⟩
  rcases bind_eq_ok_iff.mp hfinish with ⟨image, _, hp⟩
  cases hp
  rfl

theorem Program.ofReadings_renumbered (g : Nat -> Nat)
    (rs : List (Except StatementError Statement)) :
    ofReadings (rs.map (Statement.renumbered g)) =
      (ofReadings rs).mapError (StatementError.relabel (.ofLine g)) := by
  have hreadings : List.Forall₂
      (Mirrors (StatementError.Relabelled (.ofLine g)) (Statement.relabel (.ofLine g))) rs
      (rs.map (Statement.renumbered g)) := by
    rw [List.forall₂_map_right_iff, List.forall₂_same]
    intro r _
    cases r with
    | error e => exact .error rfl
    | ok st => exact .ok st
  have hmirrors : Mirrors (StatementError.Relabelled (.ofLine g)) (relabel (.ofLine g))
      (ofReadings rs) (ofReadings (rs.map (Statement.renumbered g))) := by
    apply mirrors_ofReadings (.ofLine g) _ hreadings
    intro e
    rfl
  rw [hmirrors.eq_of_graph]
  cases hprogram : ofReadings rs with
  | error e => rfl
  | ok p => exact congrArg Except.ok (relabel_ofLine g (pending_of_ofReadings hprogram))

/-- A failure that is somewhere else: `f` moves failures of the scan, and `g` renumbers lines. -/
def SourceError.move (f : LexError -> LexError) (g : Nat -> Nat) : SourceError -> SourceError
  | .lex e => .lex (f e)
  | .statement e => .statement { e with line := g e.line }

def LexError.renumber (g : Nat -> Nat) (e : LexError) : LexError :=
  { e with line := g e.line }

namespace Source

theorem reading_renumber (g : Nat -> Nat) (line : List Char) (number : Nat) :
    reading (line, g number) =
      ((reading (line, number)).map (Statement.renumbered g)).mapError (LexError.renumber g) := by
  have hshift : Token.scan (g number) 0 (scanned line) =
      (Token.scan number 0 (scanned line)).mapError (LexError.shift (g number) 0) :=
    Token.scan_shift number (g number) 0 0 (scanned line)
  rw [reading_eq, reading_eq, hshift]
  cases hscan : Token.scan number 0 (scanned line) with
  | ok ts => exact congrArg Except.ok (Statement.ofLine_renumber g number ts)
  | error e =>
      have hmoved : e.shift (g number) 0 = e.renumber g := by
        rw [LexError.shift, LexError.renumber, (Token.bounds_of_scan hscan).left, Nat.zero_add]
      exact congrArg Except.error hmoved

/-- The program of lines with their numbers, whichever these are. -/
def ofNumbered (xs : List (List Char × Nat)) : Except SourceError Program := do
  let rs ← (xs.mapM reading).mapError .lex
  (Program.ofReadings rs).mapError .statement

theorem ofTexts_ready (ls : List (List Char)) :
    Program.ofTexts (ls.map ready) = ofNumbered (ls.zipIdx 1) := by
  rw [Program.ofTexts_eq_ofReadings, Program.readings, List.zipIdx_map, List.mapM_map]
  rfl

/-- If every line reads as before, only somewhere else, then so does the program. -/
theorem ofNumbered_move {f : LexError -> LexError} {g : Nat -> Nat}
    {xs ys : List (List Char × Nat)}
    (h : List.Forall₂ (fun x y =>
      reading y = ((reading x).map (Statement.renumbered g)).mapError f) xs ys) :
    ofNumbered ys = (ofNumbered xs).mapError (SourceError.move f g) := by
  have hmirrors : Mirrors (fun e e' => e' = f e) (List.map (Statement.renumbered g))
      (xs.mapM reading) (ys.mapM reading) := by
    apply Mirrors.mapM h
    intro x y hxy
    rw [hxy]
    cases reading x with
    | error e => exact .error rfl
    | ok r => exact .ok r
  unfold ofNumbered
  rw [hmirrors.eq_of_graph]
  cases xs.mapM reading with
  | error e => rfl
  | ok rs =>
      show (Program.ofReadings (rs.map (Statement.renumbered g))).mapError _ =
        ((Program.ofReadings rs).mapError _).mapError _
      rw [Program.ofReadings_renumbered]
      cases Program.ofReadings rs with
      | ok p => rfl
      | error e =>
          exact congrArg (fun e => Except.error (SourceError.statement e))
            (e.relabel_ofLine g)

/-!
# Sources
-/

theorem ofNumbered_congr {ls ls' : List (List Char)}
    (h : List.Forall₂ (fun line line' => forall number,
      reading (line, number) = reading (line', number)) ls ls') :
    ofNumbered (ls.zipIdx 1) = ofNumbered (ls'.zipIdx 1) := by
  unfold ofNumbered
  rw [mapM_zipIdx_congr h 1]

/-- A source may be cut at its line feeds; what is left of line ends then is not seen. -/
theorem ofSource_eq_pieces (source : String) :
    Program.ofSource source = ofNumbered ((Text.pieces source.toList).zipIdx 1) := by
  have hfeed : forall piece, piece ∈ Text.pieces source.toList -> '\n' ∉ piece :=
    fun _ hpiece => Text.not_mem_of_mem_pieces hpiece
  have hjoin : ['\n'].intercalate (Text.pieces source.toList) = source.toList :=
    List.intercalate_splitOn _
  rcases Text.lineChars_intercalate hfeed with ⟨backs, hbacks, hlines⟩
  rw [hjoin] at hlines
  rw [ofSource_of_lineChars hlines, ofTexts_ready]
  symm
  apply ofNumbered_congr
  apply hbacks.imp
  rintro piece back (rfl | rfl) number
  · rfl
  · exact (reading_dropReturn piece number).symm

end Source
end Asm65
