import Asm65.Proofs.Printing
import Mathlib

/-!
# Reprinted sources

A source text keeps its meaning if each of its lines is replaced by the statement that the
line says, in its written form.  Lines that say nothing become empty.  If that happens to the
last line and no line end follows, the new text has one line less; but an empty line at the
end of a program makes no difference.
-/

namespace Asm65

/-!
# Lines of a text
-/

namespace Text

/-- A text is a last line, or a line with its end in front of another text. -/
theorem lines_induction {motive : List Char -> Prop}
    (last : forall line, '\n' ∉ line -> motive line)
    (more : forall line rest, '\n' ∉ line -> motive rest -> motive (line ++ '\n' :: rest))
    (cs : List Char) : motive cs := by
  induction hlength : cs.length using Nat.strongRecOn generalizing cs with
  | ind n ih =>
      by_cases hmem : '\n' ∈ cs
      · rcases List.eq_append_cons_of_mem hmem with ⟨line, rest, rfl, hline⟩
        apply more line rest hline
        apply ih rest.length _ rest rfl
        rw [<- hlength, List.length_append, List.length_cons]
        omega
      · exact last cs hmem

/-- The first line end of a text is found behind its first line. -/
theorem span_line {line : List Char} (h : '\n' ∉ line) (rest : List Char) :
    (line ++ '\n' :: rest).takeWhile (· != '\n') = line ∧
      (line ++ '\n' :: rest).dropWhile (· != '\n') = '\n' :: rest := by
  have hline : forall c, c ∈ line -> (c != '\n') = true := by
    intro c hc
    rw [bne_iff_ne]
    rintro rfl
    exact h hc
  constructor
  · rw [List.takeWhile_append_of_pos hline, List.takeWhile_cons_of_neg (by decide),
      List.append_nil]
  · rw [List.dropWhile_append_of_pos hline, List.dropWhile_cons_of_neg (by decide)]

theorem exists_cons_line (line rest : List Char) :
    exists c cs, line ++ '\n' :: rest = c :: cs ∧ '\n' ∈ c :: cs := by
  have hmem : '\n' ∈ line ++ '\n' :: rest := List.mem_append_right _ List.mem_cons_self
  cases htext : line ++ '\n' :: rest with
  | nil =>
      rw [htext] at hmem
      cases hmem
  | cons c cs =>
      rw [htext] at hmem
      exact ⟨c, cs, rfl, hmem⟩

theorem lineChars_line {line : List Char} (h : '\n' ∉ line) (rest : List Char) :
    lineChars (line ++ '\n' :: rest) = dropReturn line :: lineChars rest := by
  have hspan := span_line h rest
  rcases exists_cons_line line rest with ⟨c, cs, htext, hmem⟩
  rw [htext] at hspan ⊢
  rw [lineChars, if_pos hmem, hspan.left, hspan.right, List.tail_cons]

theorem lineChars_last {line : List Char} (h : '\n' ∉ line) :
    lineChars line = if line = [] then [] else [line] := by
  cases line with
  | nil => rw [lineChars, if_pos rfl]
  | cons c cs => rw [lineChars, if_neg h, if_neg (List.cons_ne_nil c cs)]

/-!
# Replacing lines
-/

/-- The carriage return that belongs to the end of a line, if there is one. -/
def returnOf (line : List Char) : List Char :=
  if line.getLast? = some '\r' then ['\r'] else []

/-- Puts another text in the place of every line, and leaves the line ends as they are. -/
def replaceLines (f : List Char -> List Char) (cs : List Char) : List Char :=
  match cs with
  | [] => []
  | c :: cs =>
      if '\n' ∈ c :: cs then
        let line := (c :: cs).takeWhile (· != '\n')
        f (dropReturn line) ++ returnOf line ++
          '\n' :: replaceLines f ((c :: cs).dropWhile (· != '\n')).tail
      else f (c :: cs)
termination_by cs.length
decreasing_by
  have hle := (List.dropWhile_sublist (l := c :: cs) (· != '\n')).length_le
  simp only [List.length_tail, List.length_cons] at hle ⊢
  omega

theorem replaceLines_line (f : List Char -> List Char) {line : List Char} (h : '\n' ∉ line)
    (rest : List Char) :
    replaceLines f (line ++ '\n' :: rest) =
      f (dropReturn line) ++ returnOf line ++ '\n' :: replaceLines f rest := by
  have hspan := span_line h rest
  rcases exists_cons_line line rest with ⟨c, cs, htext, hmem⟩
  rw [htext] at hspan ⊢
  rw [replaceLines, if_pos hmem, hspan.left, hspan.right, List.tail_cons]

theorem replaceLines_last (f : List Char -> List Char) {line : List Char} (h : '\n' ∉ line) :
    replaceLines f line = if line = [] then [] else f line := by
  cases line with
  | nil => rw [replaceLines, if_pos rfl]
  | cons c cs => rw [replaceLines, if_neg h, if_neg (List.cons_ne_nil c cs)]

/-- A replacement that makes up no line ends. -/
structure KeepsLines (f : List Char -> List Char) : Prop where
  feed : forall line, '\n' ∉ line -> '\n' ∉ f line
  ret : forall line, line.getLast? ≠ some '\r' -> (f line).getLast? ≠ some '\r'

theorem dropReturn_append_returnOf {f : List Char -> List Char} (hf : KeepsLines f)
    (line : List Char) : dropReturn (f (dropReturn line) ++ returnOf line) = f (dropReturn line) := by
  by_cases hreturn : line.getLast? = some '\r'
  · simp [dropReturn, returnOf, hreturn]
  · have hlast := hf.ret line hreturn
    simp [dropReturn, returnOf, hreturn, hlast]

theorem not_mem_dropReturn {line : List Char} {c : Char} (h : c ∉ line) : c ∉ dropReturn line := by
  unfold dropReturn
  split
  · exact fun hmem => h ((List.dropLast_sublist line).subset hmem)
  · exact h

theorem not_mem_append_returnOf {f : List Char -> List Char} (hf : KeepsLines f)
    {line : List Char} (h : '\n' ∉ line) : '\n' ∉ f (dropReturn line) ++ returnOf line := by
  have hreturn : '\n' ∉ returnOf line := by
    unfold returnOf
    split <;> decide
  rw [List.mem_append]
  exact fun hmem => hmem.elim (hf.feed _ (not_mem_dropReturn h)) hreturn

/-- The lines of the new text are the new lines, except that an empty last line is lost. -/
theorem lineChars_replaceLines {f : List Char -> List Char} (hf : KeepsLines f)
    (cs : List Char) :
    lineChars (replaceLines f cs) = (lineChars cs).map f ∨
      lineChars (replaceLines f cs) ++ [[]] = (lineChars cs).map f := by
  induction cs using lines_induction with
  | last line h =>
      rw [replaceLines_last f h, lineChars_last h]
      split
      · exact Or.inl (lineChars_last List.not_mem_nil)
      · rw [lineChars_last (hf.feed line h)]
        split
        · next hempty =>
            apply Or.inr
            rw [List.map_singleton, hempty, List.nil_append]
        · exact Or.inl rfl
  | more line rest h ih =>
      rw [replaceLines_line f h, lineChars_line (not_mem_append_returnOf hf h),
        lineChars_line h, dropReturn_append_returnOf hf, List.map_cons, List.cons_append]
      rcases ih with hsame | hless
      · exact Or.inl (by rw [hsame])
      · exact Or.inr (by rw [hless])

end Text

/-!
# Readings of lines

A program depends on its lines only through what each of them reads as, or why it cannot be
read.
-/

/-- Numbered elements may be replaced by others that give the same under every number. -/
theorem mapM_zipIdx_congr {ε α β : Type} {f : α × Nat -> Except ε β} {xs ys : List α}
    (h : List.Forall₂ (fun x y => forall n, f (x, n) = f (y, n)) xs ys) (start : Nat) :
    (xs.zipIdx start).mapM f = (ys.zipIdx start).mapM f := by
  induction h generalizing start with
  | nil =>
      rfl
  | cons hxy _ ih =>
      rw [List.zipIdx_cons, List.zipIdx_cons, List.mapM_cons, List.mapM_cons, hxy, ih]

/-- What a line of text reads as: a failure of the scan, or what its tokens say. -/
def Statement.reading (number : Nat) (text : String) :
    Except LexError (Except StatementError Statement) :=
  (TokenLine.ofText number text).map Statement.ofLine

namespace Program

def readings (texts : List String) : Except LexError (List (Except StatementError Statement)) :=
  (texts.zipIdx 1).mapM fun (text, number) => Statement.reading number text

/-- Takes up lines that have been read, up to the first that fails. -/
def ofReadings (rs : List (Except StatementError Statement)) : Except StatementError Program := do
  let s ← rs.foldlM (fun s r => r >>= State.step s) State.start
  s.finish

theorem ofLines_eq_ofReadings (ls : List TokenLine) :
    ofLines ls = ofReadings (ls.map Statement.ofLine) := by
  unfold ofLines ofReadings State.lines
  rw [List.foldlM_map]
  rfl

theorem ofTexts_eq_ofReadings (texts : List String) :
    ofTexts texts =
      ((readings texts).mapError .lex >>= fun rs => (ofReadings rs).mapError .statement) := by
  have hreadings : (TokenLine.ofTexts texts).map (List.map Statement.ofLine) = readings texts :=
    map_mapM Statement.ofLine (texts.zipIdx 1)
  rw [<- hreadings, ofTexts]
  cases TokenLine.ofTexts texts with
  | error e =>
      rfl
  | ok ls =>
      show (ofLines ls).mapError _ = (ofReadings (ls.map Statement.ofLine)).mapError _
      rw [ofLines_eq_ofReadings]

/-- Lines may be replaced by lines that read alike. -/
theorem ofTexts_congr {texts texts' : List String}
    (h : List.Forall₂ (fun text text' => forall number,
      Statement.reading number text = Statement.reading number text') texts texts') :
    ofTexts texts = ofTexts texts' := by
  have hreadings : readings texts = readings texts' := mapM_zipIdx_congr h 1
  rw [ofTexts_eq_ofReadings, ofTexts_eq_ofReadings, hreadings]

theorem reading_empty (number : Nat) :
    Statement.reading number "" = .ok (.ok ⟨number, none, none⟩) := by
  have hscan : Token.scan number 0 "".toList = .ok [] := Token.scans_nil number 0
  unfold Statement.reading TokenLine.ofText
  rw [hscan]
  rfl

theorem readings_append_empty (texts : List String) :
    readings (texts ++ [""]) =
      (readings texts).map fun rs => rs ++ [.ok ⟨1 + texts.length, none, none⟩] := by
  unfold readings
  rw [List.zipIdx_append, List.mapM_append, List.zipIdx_singleton, List.mapM_cons]
  simp only [reading_empty]
  cases (texts.zipIdx 1).mapM fun (text, number) => Statement.reading number text with
  | error e => rfl
  | ok rs => rfl

/-- An empty line is read, and it leaves everything as it is. -/
theorem ofTexts_append_empty (texts : List String) :
    ofTexts (texts ++ [""]) = ofTexts texts := by
  rw [ofTexts_eq_ofReadings, ofTexts_eq_ofReadings, readings_append_empty]
  cases readings texts with
  | error e =>
      rfl
  | ok rs =>
      show (ofReadings (rs ++ [.ok ⟨1 + texts.length, none, none⟩])).mapError _ =
        (ofReadings rs).mapError _
      unfold ofReadings
      rw [List.foldlM_append]
      cases rs.foldlM (fun s r => r >>= State.step s) State.start with
      | error e => rfl
      | ok s => rfl

end Program

/-!
# Written statements in a source
-/

theorem Statement.reading_of_ofText {number : Nat} {text : String} {st : Statement}
    (h : ofText number text = .ok st) : reading number text = .ok (.ok st) := by
  unfold ofText at h
  simp only [bind_eq_ok_iff, mapError_eq_ok_iff] at h
  rcases h with ⟨l, hl, hst⟩
  rw [reading, hl, <- hst]
  rfl

namespace Source

/-- A line in the written form of what it says; a line that cannot be read stays as it is. -/
def reprintLine (line : List Char) : List Char :=
  match Statement.ofText 1 (normalize (String.ofList line)) with
  | .ok st => st.text.toList
  | .error _ => line

/-- A source text with every line in the written form of what it says. -/
def reprint (source : String) : String :=
  String.ofList (Text.replaceLines reprintLine source.toList)

theorem stripCommentChars_eq_self {cs : List Char} (h : ';' ∉ cs) : stripCommentChars cs = cs := by
  unfold stripCommentChars
  rw [List.takeWhile_eq_self_iff]
  intro c hc
  rw [bne_iff_ne]
  rintro rfl
  exact h hc

theorem normalize_eq_self {text : String} (hcomment : ';' ∉ text.toList)
    (hcapital : forall c, c ∈ text.toList -> c.isLower = false) : normalize text = text := by
  have hupper : Text.upperChars text.toList = text.toList := by
    unfold Text.upperChars
    have hsame : forall c, c ∈ text.toList -> c.toUpper = c := by
      intro c hc
      apply Char.toUpper_eq_of_not_isLower
      rw [hcapital c hc]
      exact Bool.false_ne_true
    rw [List.map_congr_left hsame, List.map_id']
  rw [normalize, stripCommentChars_eq_self hcomment, hupper, String.ofList_toList]

theorem normalize_of_plain {text : String} (h : forall c, c ∈ text.toList -> Shape.IsPlain c) :
    normalize text = text := by
  apply normalize_eq_self
  · intro hmem
    exact (h _ hmem).right.right rfl
  · intro c hc
    have hhigh := (h c hc).right.left
    rw [Bool.eq_false_iff]
    intro hlower
    have hlow : 97 ≤ c.toNat := of_decide_eq_true (Bool.and_elim_left hlower)
    omega

theorem reprintLine_cases (line : List Char) :
    (exists st, Statement.ofText 1 (normalize (String.ofList line)) = .ok st ∧
      reprintLine line = st.text.toList) ∨ reprintLine line = line := by
  unfold reprintLine
  cases hread : Statement.ofText 1 (normalize (String.ofList line)) with
  | ok st => exact Or.inl ⟨st, rfl, rfl⟩
  | error e => exact Or.inr rfl

theorem keepsLines_reprintLine : Text.KeepsLines reprintLine := by
  constructor
  · intro line hline
    rcases reprintLine_cases line with ⟨st, hread, hprint⟩ | hsame
    · rw [hprint]
      intro hmem
      exact absurd ((Statement.spells_of_ofText hread).plain _ hmem).left (by decide)
    · rw [hsame]
      exact hline
  · intro line hline
    rcases reprintLine_cases line with ⟨st, hread, hprint⟩ | hsame
    · rw [hprint]
      intro hlast
      have hmem := List.mem_of_getLast? hlast
      exact absurd ((Statement.spells_of_ofText hread).plain _ hmem).left (by decide)
    · rw [hsame]
      exact hline

/-- On whatever line it stands, a reprinted line reads as before. -/
theorem reading_reprintLine (line : List Char) (number : Nat) :
    Statement.reading number (normalize (String.ofList (reprintLine line))) =
      Statement.reading number (normalize (String.ofList line)) := by
  rcases reprintLine_cases line with ⟨st, hread, hprint⟩ | hsame
  · have hplain := (Statement.spells_of_ofText hread).plain
    have hbefore := Statement.ofText_renumber hread number
    have hafter : Statement.ofText number st.text = .ok { st with line := number } :=
      Statement.ofText_text hbefore
    rw [hprint, String.ofList_toList, normalize_of_plain hplain,
      Statement.reading_of_ofText hbefore, Statement.reading_of_ofText hafter]
  · rw [hsame]

/-- The text of a line that is ready to be scanned. -/
def ready (line : List Char) : String :=
  normalize (String.ofList line)

theorem ofSource_eq (source : String) :
    Program.ofSource source = Program.ofTexts ((Text.lineChars source.toList).map ready) := by
  rw [Program.ofSource, Text.lines, List.map_map]
  rfl

/-- An empty line that is not there at the end of a source makes no difference. -/
theorem ofSource_of_lineChars {source : String} {ls : List (List Char)}
    (h : Text.lineChars source.toList = ls ∨ Text.lineChars source.toList ++ [[]] = ls) :
    Program.ofSource source = Program.ofTexts (ls.map ready) := by
  rw [ofSource_eq]
  rcases h with hsame | hless
  · rw [hsame]
  · have hempty : ready [] = "" := rfl
    rw [<- hless, List.map_append, List.map_singleton, hempty, Program.ofTexts_append_empty]

theorem ofSource_reprint (source : String) :
    Program.ofSource (reprint source) = Program.ofSource source := by
  have hlines := Text.lineChars_replaceLines keepsLines_reprintLine source.toList
  rw [ofSource_of_lineChars (by rwa [reprint, String.toList_ofList]), ofSource_eq, List.map_map]
  apply Program.ofTexts_congr
  rw [List.forall₂_map_left_iff, List.forall₂_map_right_iff, List.forall₂_same]
  intro line _ number
  exact reading_reprintLine line number

theorem reprint_read_back :
    (forall number text st, Statement.ofText number text = .ok st ->
      Statement.ofText number st.text = .ok st) ∧
    (forall source, Program.ofSource (reprint source) = Program.ofSource source) := by
  constructor
  · intro number text st h
    exact Statement.ofText_text h
  · intro source
    exact ofSource_reprint source

/-- Three bytes under the longer name, and each in another radix, on line `3`. -/
def labelledBytes : Statement :=
  ⟨3, some ⟨"T1", 1⟩, some (.directive (.bytes [8, 3, 255]))⟩

theorem labelledBytes_read_back :
    Statement.ofText 3 "T1:.BYTES 010,%11,$FF" = .ok labelledBytes ∧
      labelledBytes.text = "T1: .BYTE 8, 3, 255" ∧
      Statement.ofText 3 labelledBytes.text = .ok labelledBytes := by
  have hread : Statement.ofText 3 "T1:.BYTES 010,%11,$FF" = .ok labelledBytes := by
    decide +kernel
  have htext : labelledBytes.text = "T1: .BYTE 8, 3, 255" := by decide +kernel
  exact ⟨hread, htext, reprint_read_back.left 3 _ _ hread⟩

end Source
end Asm65
