import Asm65.Proofs.Unfolding

/-!
# Flattened sources

The lines that a file expands to can be joined to one source text, with no includes in it.
When that text is split again, an empty last line is lost, and so is a carriage return at the
end of a line before the last.  Neither of them matters to the program.
-/

namespace Asm65

/-!
# Lines with their ends
-/

namespace Text

theorem not_mem_of_mem_lineChars {cs line : List Char} (h : line ∈ lineChars cs) :
    '\n' ∉ line := by
  induction cs using lines_induction with
  | last last hlast =>
      rw [lineChars_last hlast] at h
      split at h
      · cases h
      · rw [List.mem_singleton.mp h]
        exact hlast
  | more first rest hfirst ih =>
      rw [lineChars_line hfirst] at h
      rcases List.mem_cons.mp h with rfl | hrest
      · exact not_mem_dropReturn hfirst
      · exact ih hrest

/-- What may come back in the place of a line that is joined to others and split off again. -/
def IsBack (line back : List Char) : Prop :=
  back = line ∨ back = dropReturn line

/-- Every line comes back, except that an empty last line is lost. -/
theorem lineChars_intercalate {ls : List (List Char)} (h : forall line, line ∈ ls -> '\n' ∉ line) :
    exists backs, List.Forall₂ IsBack ls backs ∧
      (lineChars (['\n'].intercalate ls) = backs ∨
        lineChars (['\n'].intercalate ls) ++ [[]] = backs) := by
  induction ls with
  | nil => exact ⟨[], .nil, Or.inl (lineChars_last List.not_mem_nil)⟩
  | cons line ls ih =>
      rw [List.forall_mem_cons] at h
      cases ls with
      | nil =>
          refine ⟨[line], .cons (Or.inl rfl) .nil, ?_⟩
          rw [List.intercalate_singleton, lineChars_last h.left]
          split
          · next hempty => exact Or.inr (by rw [hempty, List.nil_append])
          · exact Or.inl rfl
      | cons next ls =>
          rcases ih h.right with ⟨backs, hbacks, hlines⟩
          refine ⟨dropReturn line :: backs, .cons (Or.inr rfl) hbacks, ?_⟩
          rw [List.intercalate_cons_cons, List.append_assoc, List.singleton_append,
            lineChars_line h.left, List.cons_append]
          rcases hlines with hsame | hless
          · exact Or.inl (by rw [hsame])
          · exact Or.inr (by rw [hless])

end Text

/-!
# Lines that are ready
-/

namespace Source

/-- A line that is as it is scanned: without a comment or a line end, and in capitals. -/
structure IsReady (line : String) : Prop where
  comment : ';' ∉ line.toList
  feed : '\n' ∉ line.toList
  capital : forall c, c ∈ line.toList -> c.isLower = false

theorem mem_normalize {line : String} {d : Char} (h : d ∈ (normalize line).toList) :
    exists c, c ∈ line.toList ∧ c ≠ ';' ∧ c.toUpper = d := by
  rw [normalize, String.toList_ofList, Text.upperChars, List.mem_map] at h
  rcases h with ⟨c, hc, hd⟩
  refine ⟨c, (List.takeWhile_sublist _).subset hc, ?_, hd⟩
  rintro rfl
  exact not_mem_stripCommentChars line.toList hc

theorem isReady_normalize {line : String} (h : '\n' ∉ line.toList) : IsReady (normalize line) := by
  constructor
  · intro hmem
    rcases mem_normalize hmem with ⟨c, _, hne, hc⟩
    exact hne (Text.eq_of_toUpper_eq hc (by decide))
  · intro hmem
    rcases mem_normalize hmem with ⟨c, hc, _, hupper⟩
    rw [Text.eq_of_toUpper_eq hupper (by decide)] at hc
    exact h hc
  · intro d hd
    rcases mem_normalize hd with ⟨c, _, _, rfl⟩
    exact Char.isLower_toUpper_eq_false c

theorem IsReady.normalize {line : String} (h : IsReady line) : Source.normalize line = line :=
  normalize_eq_self h.comment h.capital

theorem IsReady.stripComment {line : String} (h : IsReady line) :
    Source.stripComment line = line := by
  rw [Source.stripComment, stripCommentChars_eq_self h.comment, String.ofList_toList]

/-- A line that comes back reads as the line that was written down. -/
theorem IsReady.reading_back {line : String} (h : IsReady line) {back : List Char}
    (hback : Text.IsBack line.toList back) (number : Nat) :
    Statement.reading number line = Statement.reading number (ready back) := by
  have hready : ready line.toList = line := by
    rw [ready, String.ofList_toList, h.normalize]
  have hline : reading (line.toList, number) = Statement.reading number line := by
    rw [reading, hready]
  rcases hback with rfl | rfl
  · exact hline.symm
  · exact hline.symm.trans (reading_dropReturn line.toList number).symm

/-- Lines that are ready mean the same on their own and joined to one source. -/
theorem ofSource_intercalate {lines : List String} (h : forall line, line ∈ lines -> IsReady line) :
    Program.ofSource ("\n".intercalate lines) = Program.ofTexts lines := by
  have hfeed : forall cs, cs ∈ lines.map String.toList -> '\n' ∉ cs := by
    intro cs hcs
    rcases List.mem_map.mp hcs with ⟨line, hline, rfl⟩
    exact (h line hline).feed
  rcases Text.lineChars_intercalate hfeed with ⟨backs, hbacks, hsplit⟩
  have hjoin : ("\n".intercalate lines).toList = ['\n'].intercalate (lines.map String.toList) :=
    String.toList_intercalate
  rw [<- hjoin] at hsplit
  rw [List.forall₂_map_left_iff] at hbacks
  rw [ofSource_of_lineChars hsplit]
  symm
  apply Program.ofTexts_congr
  rw [List.forall₂_map_right_iff]
  apply ((List.forall₂_and_left _ _).mpr ⟨h, hbacks⟩).imp
  intro line back hboth number
  exact hboth.left.reading_back hboth.right number

end Source

/-!
# Include lines
-/

namespace Include

theorem path?_normalize {line : String} (h : path? (Source.stripComment line) = none) :
    path? (Source.normalize line) = none := by
  unfold path? at h ⊢
  rw [Option.map_eq_none_iff] at h ⊢
  rw [Source.stripComment, String.toList_ofList] at h
  rw [Source.normalize, String.toList_ofList]
  exact (pathChars?_upperChars _).mpr h

namespace Part

variable {read : Reader}

theorem eq_of_ofLine_eq_text {path line : String} {numbered : String × Nat}
    (h : ofLine path numbered = text line) :
    numbered.1 = line ∧ path? (Source.stripComment line) = none := by
  unfold ofLine at h
  cases hpath : path? (Source.stripComment numbered.1) with
  | none =>
      rw [hpath] at h
      cases h
      exact ⟨rfl, hpath⟩
  | some target =>
      rw [hpath] at h
      simp only at h
      split at h <;> cases h

/-- A line of an unfolding is a line of one of its files, and includes nothing. -/
def IsLineOfFile (read : Reader) (line : String) : Prop :=
  exists path content, read path = .ok content ∧ line ∈ Text.lines content ∧
    path? (Source.stripComment line) = none

theorem isLineOfFile_of_below {part : Part} {line : String} (h : text line ∈ part.below read) :
    IsLineOfFile read line := by
  cases part with
  | text other => cases h
  | nameless path number => cases h
  | file path =>
      cases hread : read path with
      | error cause =>
          simp only [below, hread] at h
          cases h
      | ok content =>
          rw [below_file hread] at h
          rcases List.mem_map.mp h with ⟨numbered, hmem, hline⟩
          rcases eq_of_ofLine_eq_text hline with ⟨rfl, hpath⟩
          exact ⟨path, content, hread, List.fst_mem_of_mem_zipIdx hmem, hpath⟩

theorem isLineOfFile_of_unfolding {part : Part} {place : Place} {line : String}
    (h : part.unfolding read place = some (text line)) :
    part = text line ∨ IsLineOfFile read line := by
  induction place generalizing part with
  | nil => exact Or.inl (Option.some.inj h)
  | cons i place ih =>
      rcases Option.bind_eq_some_iff.mp h with ⟨child, hchild, hline⟩
      rcases ih hline with rfl | hfile
      · exact Or.inr (isLineOfFile_of_below (List.mem_of_getElem? hchild))
      · exact Or.inr hfile

end Part

theorem isReady_of_ofFile {read : Reader} {limit : Nat} {path line : String}
    {lines : List String} (h : ofFile read limit path = .ok lines) (hline : line ∈ lines) :
    Source.IsReady line ∧ path? (Source.stripComment line) = none := by
  rcases (tells_ofFile read limit path).eq_ok_iff.mp h with ⟨_, hflattens⟩
  rcases flattens_iff.mp hflattens with ⟨entries, _, hmem, rfl⟩
  rcases List.mem_map.mp hline with ⟨⟨place, raw⟩, hentry, rfl⟩
  rcases Part.isLineOfFile_of_unfolding ((hmem place raw).mp hentry) with hroot | hfile
  · cases hroot
  · rcases hfile with ⟨_, content, _, hraw, hpath⟩
    rcases List.mem_map.mp hraw with ⟨cs, hcs, rfl⟩
    have hready : Source.IsReady (Source.normalize (String.ofList cs)) := by
      apply Source.isReady_normalize
      rw [String.toList_ofList]
      exact Text.not_mem_of_mem_lineChars hcs
    refine ⟨hready, ?_⟩
    rw [hready.stripComment]
    exact path?_normalize hpath

/-- A file without include lines expands to its own lines. -/
theorem ofFile_of_no_include {read : Reader} {path content : String} (limit : Nat)
    (hread : read path = .ok content)
    (h : forall line, line ∈ Text.lines content -> path? (Source.stripComment line) = none) :
    ofFile read limit path = .ok ((Text.lines content).map Source.normalize) := by
  have hlines : ((Text.lines content).zipIdx 1).mapM
        (expandLine (Path.parent path) (some path) (expandIncluded read limit limit)) =
      ((Text.lines content).zipIdx 1).mapM fun line => pure [Source.normalize line.1] := by
    apply mapM_congr
    intro line hline
    simp only [expandLine, h line.1 (List.fst_mem_of_mem_zipIdx hline)]
    rfl
  have hflat : (((Text.lines content).zipIdx 1).map fun line => [Source.normalize line.1]).flatten =
      (Text.lines content).map Source.normalize := by
    conv_rhs => rw [<- List.zipIdx_map_fst 1 (Text.lines content), List.map_map]
    exact List.flatMap_pure_eq_map _ _
  simp only [ofFile, expandWith, hread, expandText, hlines, List.mapM_pure]
  exact congrArg Except.ok hflat

end Include

/--
A file that can be expanded means what the one source text means that its lines make up.  If
nothing is included, that text can be the text of the file itself.
-/
theorem Program.ofFile_agrees_with_ofSource :
    (forall read limit path lines, Include.ofFile read limit path = .ok lines ->
      (forall line, line ∈ lines ->
        Source.IsReady line ∧ Include.path? (Source.stripComment line) = none) ∧
      ofTexts lines = ofSource ("\n".intercalate lines) ∧
      ofFile read limit path = (ofSource ("\n".intercalate lines)).mapError .source) ∧
    (forall read limit path content, read path = .ok content ->
      (forall line, line ∈ Text.lines content ->
        Include.path? (Source.stripComment line) = none) ->
      ofFile read limit path = (ofSource content).mapError .source) := by
  constructor
  · intro read limit path lines h
    have hready : forall line, line ∈ lines ->
        Source.IsReady line ∧ Include.path? (Source.stripComment line) = none :=
      fun _ hline => Include.isReady_of_ofFile h hline
    have hjoin := Source.ofSource_intercalate fun line hline => (hready line hline).left
    refine ⟨hready, hjoin.symm, ?_⟩
    rw [hjoin, ofFile, h]
    rfl
  · intro read limit path content hread h
    rw [ofFile, Include.ofFile_of_no_include limit hread h]
    rfl

/-- A source in two files.  The second ends in a carriage return, which stays in its line. -/
def splitSource : Include.Reader :=
  fun path =>
    if path = "lib.asm" then .ok ".byte 1\r"
    else .ok "jmp end ; over the byte\n.include \"lib.asm\"\nend: brk"

theorem Program.splitSource_agrees_with_joined :
    ofFile splitSource 1 "main.asm" =
        (ofSource "JMP END \n.BYTE 1\r\nEND: BRK").mapError .source ∧
      ofFile splitSource 0 "lib.asm" = (ofSource ".byte 1\r").mapError .source := by
  have hlines : Include.ofFile splitSource 1 "main.asm" =
      .ok ["JMP END ", ".BYTE 1\r", "END: BRK"] := by
    decide +kernel
  have hplain : forall line, line ∈ Text.lines ".byte 1\r" ->
      Include.path? (Source.stripComment line) = none := by
    decide +kernel
  constructor
  · exact (ofFile_agrees_with_ofSource.left _ _ _ _ hlines).right.right
  · exact ofFile_agrees_with_ofSource.right _ 0 _ _ rfl hplain

end Asm65
