import Asm65.Proofs.IncludeLine
import Asm65.Proofs.Lines
import Asm65.Proofs.Paths

/-!
# The unfolding of a file

A file unfolds into a tree: below it stand its lines in order, and a line that includes a
file stands for the unfolding of that file.  Files that include each other unfold without
end, so the tree is not built but known by its places.  Places are compared level by level
from the root down, and a place comes before those below it: this is the order of a walk
that goes down first.
-/

namespace Asm65

/-!
# Lines of a file
-/

namespace Source

/-- What stands on a line in front of its comment, which begins with the first semicolon. -/
inductive IsCode : List Char -> List Char -> Prop where
  | whole {line : List Char} : ';' ∉ line -> IsCode line line
  | commented {code comment : List Char} : ';' ∉ code -> IsCode (code ++ ';' :: comment) code

/-- A line as it is scanned: its code, in capitals. -/
def Prepares (line text : String) : Prop :=
  exists code, IsCode line.toList code ∧ text.toList = code.map Char.toUpper

theorem not_mem_stripCommentChars (line : List Char) : ';' ∉ stripCommentChars line := by
  intro hmem
  exact Bool.false_ne_true (List.mem_takeWhile_imp (p := (· != ';')) hmem)

theorem isCode_iff {line code : List Char} :
    IsCode line code <-> stripCommentChars line = code := by
  constructor
  · intro h
    cases h with
    | whole hfree => exact stripCommentChars_eq_self hfree
    | commented hfree =>
        rw [stripCommentChars_append hfree]
        exact List.append_nil code
  · rintro rfl
    have hfree := not_mem_stripCommentChars line
    have hsplit : stripCommentChars line ++ line.dropWhile (· != ';') = line :=
      List.takeWhile_append_dropWhile
    cases hcomment : line.dropWhile (· != ';') with
    | nil =>
        rw [hcomment, List.append_nil] at hsplit
        rw [hsplit] at hfree ⊢
        exact .whole hfree
    | cons c comment =>
        have hstop := List.head?_dropWhile_not (· != ';') line
        rw [hcomment] at hstop
        rw [hcomment, bne_eq_false_iff_eq.mp hstop] at hsplit
        have hcode := @IsCode.commented _ comment hfree
        rwa [hsplit] at hcode

theorem isCode_stripComment_iff {line : String} {code : List Char} :
    IsCode line.toList code <-> (stripComment line).toList = code := by
  rw [isCode_iff, stripComment, String.toList_ofList]

theorem prepares_iff {line text : String} : Prepares line text <-> normalize line = text := by
  simp only [Prepares, isCode_iff, exists_eq_left', normalize, Text.upperChars]
  rw [<- String.toList_inj, String.toList_ofList, eq_comm]

end Source

namespace Include

/-- A part of an unfolding: a line, an include line without a path, or an included file. -/
inductive Part
  | text (line : String)
  | nameless (path : String) (number : Nat)
  | file (path : String)

/-- The way from the root to a part: on each level, how many lines stand before it. -/
abbrev Place := List Nat

/-- The part at each place, if there is one. -/
abbrev Tree := Place -> Option Part

namespace Part

/-- The part that a numbered line of the file at `path` stands for. -/
def ofLine (path : String) (line : String × Nat) : Part :=
  match path? (Source.stripComment line.1) with
  | none => .text line.1
  | some target =>
      if target.isEmpty then .nameless path line.2
      else .file (Path.join (Path.parent path) target)

/--
What a numbered line of the file at `path` stands for: for itself if its code is no include line,
and otherwise for the file that the code names, as it is reached from the directory of `path`.
-/
inductive StandsFor (path : String) : String × Nat -> Part -> Prop where
  | text {line : String} {number : Nat} {code : List Char} :
      Source.IsCode line.toList code -> (forall rest, ¬ IsIncludeLine code rest) ->
        StandsFor path (line, number) (.text line)
  | nameless {line : String} {number : Nat} {code rest : List Char} :
      Source.IsCode line.toList code -> IsIncludeLine code rest -> Names rest [] ->
        StandsFor path (line, number) (.nameless path number)
  | file {line : String} {number : Nat} {code rest target dir : List Char} {included : String} :
      Source.IsCode line.toList code -> IsIncludeLine code rest -> Names rest target ->
        target ≠ [] -> Path.LiesIn path.toList dir -> Path.Joins dir target included.toList ->
          StandsFor path (line, number) (.file included)

theorem standsFor_iff {path : String} {line : String × Nat} {part : Part} :
    StandsFor path line part <-> ofLine path line = part := by
  rcases line with ⟨line, number⟩
  constructor
  · intro h
    cases h with
    | text hcode hnone =>
        rw [<- Source.isCode_stripComment_iff.mp hcode, <- path?_eq_none_iff] at hnone
        simp only [ofLine, hnone]
    | nameless hcode hline hnames =>
        rw [<- Source.isCode_stripComment_iff.mp hcode] at hline
        have hpath : path? (Source.stripComment line) = some "" :=
          (path?_iff_names hline).mpr hnames
        simp only [ofLine, hpath]
        rfl
    | @file _ _ _ _ target _ included hcode hline hnames hne hdir hjoins =>
        rw [<- Source.isCode_stripComment_iff.mp hcode] at hline
        rw [<- String.toList_ofList (l := target)] at hnames hjoins
        have hpath := (path?_iff_names hline).mpr hnames
        have hempty : ¬ (String.ofList target).isEmpty = true := by
          rwa [String.isEmpty_iff, <- String.toList_eq_nil_iff, String.toList_ofList]
        rw [<- Path.liesIn_iff.mp hdir, Path.joins_iff, String.toList_inj] at hjoins
        simp only [ofLine, hpath, if_neg hempty, hjoins]
  · rintro rfl
    have hcode := Source.isCode_stripComment_iff.mpr (Eq.refl (Source.stripComment line).toList)
    unfold ofLine
    cases hpath : path? (Source.stripComment line) with
    | none => exact .text hcode (path?_eq_none_iff.mp hpath)
    | some target =>
        rcases path?_eq_some_iff.mp hpath with ⟨rest, hline, hnames⟩
        simp only
        split
        · next hempty =>
            rw [String.isEmpty_iff.mp hempty] at hnames
            exact .nameless hcode hline hnames
        · next hempty =>
            rw [String.isEmpty_iff, <- String.toList_eq_nil_iff] at hempty
            exact .file hcode hline hnames hempty (Path.liesIn_iff.mpr rfl) (Path.joins_iff.mpr rfl)

/-- The parts one level below.  There are none below a file that cannot be read. -/
def below (read : Reader) : Part -> List Part
  | .text _ => []
  | .nameless _ _ => []
  | .file path =>
      match read path with
      | .error _ => []
      | .ok content => ((Text.lines content).zipIdx 1).map (ofLine path)

def unfolding (read : Reader) (part : Part) : Tree
  | [] => some part
  | i :: place => (part.below read)[i]?.bind fun child => unfolding read child place

/-- What stops an expansion at a part that stands `depth` levels below the root. -/
def fault? (read : Reader) (limit depth : Nat) : Part -> Option IncludeError
  | .text _ => none
  | .nameless path number => some (.missingPath (some path) number)
  | .file path =>
      if limit < depth then some (.tooDeep path limit)
      else
        match read path with
        | .error cause => some (.unreadable path cause)
        | .ok _ => none

end Part

/-- The unfolding of the file at `root`. -/
def unfolding (read : Reader) (root : String) : Tree :=
  Part.unfolding read (.file root)

/-!
# What an unfolding says

The depth of a part is the length of its place.  A list of lines flattens a tree if it holds
the lines of the tree and no others, in the order of their places.
-/

/--
How the unfolding of a file is built: the file is its root, and below each file that can be read
stand its lines in order, each as what it stands for.
-/
structure IsUnfolding (read : Reader) (root : String) (tree : Tree) : Prop where
  root : tree [] = some (.file root)
  below : forall place i part, tree (place ++ [i]) = some part <->
    exists (path content line : String) (lines : List String),
      tree place = some (.file path) ∧ read path = .ok content ∧
        Text.AreLines content.toList (lines.map String.toList) ∧ lines[i]? = some line ∧
          part.StandsFor path (line, i + 1)

/-- Every file can be read, every include line has a path, and none lies too deep. -/
structure Complete (read : Reader) (limit : Nat) (root : String) : Prop where
  readable : forall place path, unfolding read root place = some (.file path) ->
    exists text, read path = .ok text
  named : forall place path number, unfolding read root place ≠ some (.nameless path number)
  /-- No line of a file at depth `limit` includes a file. -/
  shallow : forall place i path, place.length = limit ->
    unfolding read root (place ++ [i]) ≠ some (.file path)

def Flattens (tree : Tree) (lines : List String) : Prop :=
  exists entries : List (Place × String),
    entries.Pairwise (fun a b => a.1 < b.1) ∧
    (forall place line, (place, line) ∈ entries <-> tree place = some (.text line)) ∧
    List.Forall₂ (fun entry line => Source.Prepares entry.2 line) entries lines

/-- The fault at a place of a tree whose own depth is `depth`. -/
def faultAt? (read : Reader) (limit depth : Nat) (tree : Tree) (place : Place) :
    Option IncludeError :=
  (tree place).bind (Part.fault? read limit (depth + place.length))

def FirstFault (read : Reader) (limit depth : Nat) (tree : Tree) (e : IncludeError) : Prop :=
  exists place, faultAt? read limit depth tree place = some e ∧
    forall earlier, earlier < place -> faultAt? read limit depth tree earlier = none

theorem flattens_iff {tree : Tree} {lines : List String} :
    Flattens tree lines <->
      exists entries : List (Place × String),
        entries.Pairwise (fun a b => a.1 < b.1) ∧
        (forall place line, (place, line) ∈ entries <-> tree place = some (.text line)) ∧
        lines = entries.map fun entry => Source.normalize entry.2 := by
  have hlines (entries : List (Place × String)) :
      List.Forall₂ (fun entry line => Source.Prepares entry.2 line) entries lines <->
        lines = entries.map fun entry => Source.normalize entry.2 := by
    have hnormal (entry : Place × String) (line : String) :
        Source.Prepares entry.2 line <-> Source.normalize entry.2 = line :=
      Source.prepares_iff
    rw [forall₂_iff_map_eq hnormal, eq_comm]
  simp only [Flattens, hlines]

theorem Flattens.unique {tree : Tree} {ls ms : List String} (hls : Flattens tree ls)
    (hms : Flattens tree ms) : ls = ms := by
  rcases flattens_iff.mp hls with ⟨entries, hsorted, hmem, rfl⟩
  rcases flattens_iff.mp hms with ⟨entries', hsorted', hmem', rfl⟩
  have hirrefl : Std.Irrefl fun a b : Place × String => a.1 < b.1 :=
    ⟨fun a => lt_irrefl a.1⟩
  have hantisymm : Std.Antisymm fun a b : Place × String => a.1 < b.1 :=
    ⟨fun _ _ h h' => (lt_asymm h h').elim⟩
  have hsame : entries = entries' := by
    apply List.Pairwise.eq_of_mem_iff hsorted hsorted'
    intro entry
    rw [hmem, hmem']
  rw [hsame]

section Trees

variable {read : Reader} {limit depth : Nat}

theorem FirstFault.unique {tree : Tree} {e f : IncludeError}
    (he : FirstFault read limit depth tree e) (hf : FirstFault read limit depth tree f) :
    e = f := by
  rcases he with ⟨p, hp, hbefore⟩
  rcases hf with ⟨q, hq, hbefore'⟩
  rcases lt_trichotomy p q with hlt | rfl | hlt
  · rw [hbefore' p hlt] at hp
    cases hp
  · rw [hp] at hq
    exact Option.some.inj hq
  · rw [hbefore q hlt] at hq
    cases hq

theorem FirstFault.not_faultless {tree : Tree} {e : IncludeError}
    (h : FirstFault read limit depth tree e) :
    ¬ forall place, faultAt? read limit depth tree place = none := by
  intro hnone
  rcases h with ⟨place, hplace, _⟩
  rw [hnone place] at hplace
  cases hplace

/-- What the outcome of an expansion says about the tree that is expanded. -/
inductive Tells (read : Reader) (limit depth : Nat) (tree : Tree) :
    Except IncludeError (List String) -> Prop
  | ok {lines : List String} (faultless : forall place, faultAt? read limit depth tree place = none)
      (flattens : Flattens tree lines) : Tells read limit depth tree (.ok lines)
  | error {e : IncludeError} (first : FirstFault read limit depth tree e) :
      Tells read limit depth tree (.error e)

theorem Tells.eq_ok_iff {tree : Tree} {x : Except IncludeError (List String)}
    {lines : List String} (h : Tells read limit depth tree x) :
    x = .ok lines <->
      (forall place, faultAt? read limit depth tree place = none) ∧ Flattens tree lines := by
  cases h with
  | ok faultless flattens =>
      constructor
      · intro heq
        cases heq
        exact ⟨faultless, flattens⟩
      · intro hlines
        rw [flattens.unique hlines.right]
  | error first =>
      constructor
      · intro heq
        cases heq
      · intro hlines
        exact (first.not_faultless hlines.left).elim

theorem Tells.eq_error_iff {tree : Tree} {x : Except IncludeError (List String)}
    {e : IncludeError} (h : Tells read limit depth tree x) :
    x = .error e <-> FirstFault read limit depth tree e := by
  cases h with
  | ok faultless flattens =>
      constructor
      · intro heq
        cases heq
      · intro hfirst
        exact (hfirst.not_faultless faultless).elim
  | error first =>
      constructor
      · intro heq
        cases heq
        exact first
      · intro hfirst
        rw [first.unique hfirst]

theorem Tells.faultless_or_first {tree : Tree} {x : Except IncludeError (List String)}
    (h : Tells read limit depth tree x) :
    (forall place, faultAt? read limit depth tree place = none) ∨
      exists e, FirstFault read limit depth tree e := by
  cases h with
  | ok faultless flattens => exact Or.inl faultless
  | error first => exact Or.inr ⟨_, first⟩

/-!
# Parts side by side
-/

/-- The tree of parts that stand below one place. -/
def forest (read : Reader) (parts : List Part) : Tree
  | [] => none
  | i :: place => parts[i]?.bind fun part => part.unfolding read place

theorem forest_concat_last (parts : List Part) (part : Part) (place : Place) :
    forest read (parts ++ [part]) (parts.length :: place) = part.unfolding read place := by
  simp [forest]

theorem forest_concat_of_ne (parts : List Part) (part : Part) {i : Nat} (hi : i ≠ parts.length)
    (place : Place) :
    forest read (parts ++ [part]) (i :: place) = forest read parts (i :: place) := by
  have hsame : (parts ++ [part])[i]? = parts[i]? := by
    rcases Nat.lt_or_gt_of_ne hi with hlt | hgt
    · exact List.getElem?_append_left hlt
    · rw [List.getElem?_append_right hgt.le, List.getElem?_eq_none hgt.le]
      exact List.getElem?_eq_none (Nat.le_sub_of_add_le' hgt)
  simp only [forest, hsame]

theorem lt_length_of_forest {parts : List Part} {i : Nat} {place : Place} {part : Part}
    (h : forest read parts (i :: place) = some part) : i < parts.length := by
  by_contra hi
  simp [forest, List.getElem?_eq_none (Nat.le_of_not_lt hi)] at h

theorem faultAt?_concat_last (parts : List Part) (part : Part) (place : Place) :
    faultAt? read limit depth (forest read (parts ++ [part])) (parts.length :: place) =
      faultAt? read limit (depth + 1) (part.unfolding read) place := by
  unfold faultAt?
  rw [forest_concat_last, List.length_cons, Nat.add_assoc, Nat.add_comm 1]

theorem faultAt?_concat_of_ne (parts : List Part) (part : Part) {i : Nat}
    (hi : i ≠ parts.length) (place : Place) :
    faultAt? read limit depth (forest read (parts ++ [part])) (i :: place) =
      faultAt? read limit depth (forest read parts) (i :: place) := by
  unfold faultAt?
  rw [forest_concat_of_ne parts part hi]

/-- A fault in the parts before comes first, whatever the part after them is. -/
theorem FirstFault.concat {parts : List Part} {e : IncludeError}
    (h : FirstFault read limit depth (forest read parts) e) (part : Part) :
    FirstFault read limit depth (forest read (parts ++ [part])) e := by
  rcases h with ⟨_ | ⟨i, place⟩, hfault, hbefore⟩
  · cases hfault
  · have hi : i < parts.length := by
      rcases Option.bind_eq_some_iff.mp hfault with ⟨_, hpart, _⟩
      exact lt_length_of_forest hpart
    refine ⟨i :: place, ?_, ?_⟩
    · rw [faultAt?_concat_of_ne parts part hi.ne, hfault]
    · intro earlier hlt
      cases earlier with
      | nil => rfl
      | cons j earlier =>
          have hj : j ≤ i := by
            rcases List.cons_lt_cons_iff.mp hlt with hlt | ⟨rfl, _⟩
            · exact hlt.le
            · exact le_rfl
          rw [faultAt?_concat_of_ne parts part (hj.trans_lt hi).ne]
          exact hbefore _ hlt

/-- A fault in the last part comes first if the parts before it have none. -/
theorem FirstFault.concat_last {parts : List Part} {part : Part} {e : IncludeError}
    (hparts : forall place, faultAt? read limit depth (forest read parts) place = none)
    (h : FirstFault read limit (depth + 1) (part.unfolding read) e) :
    FirstFault read limit depth (forest read (parts ++ [part])) e := by
  rcases h with ⟨place, hfault, hbefore⟩
  refine ⟨parts.length :: place, ?_, ?_⟩
  · rw [faultAt?_concat_last, hfault]
  · intro earlier hlt
    cases earlier with
    | nil => rfl
    | cons j earlier =>
        rcases List.cons_lt_cons_iff.mp hlt with hj | ⟨rfl, hrest⟩
        · rw [faultAt?_concat_of_ne parts part hj.ne]
          exact hparts _
        · rw [faultAt?_concat_last]
          exact hbefore earlier hrest

theorem Flattens.concat {parts : List Part} {part : Part} {ls ms : List String}
    (hls : Flattens (forest read parts) ls) (hms : Flattens (part.unfolding read) ms) :
    Flattens (forest read (parts ++ [part])) (ls ++ ms) := by
  rcases flattens_iff.mp hls with ⟨entries, hsorted, hmem, rfl⟩
  rcases flattens_iff.mp hms with ⟨entries', hsorted', hmem', rfl⟩
  refine flattens_iff.mpr
    ⟨entries ++ entries'.map fun entry => (parts.length :: entry.1, entry.2), ?_, ?_, ?_⟩
  · rw [List.pairwise_append]
    refine ⟨hsorted, ?_, ?_⟩
    · rw [List.pairwise_map]
      exact hsorted'.imp fun h => List.cons_lt_cons_iff.mpr (Or.inr ⟨rfl, h⟩)
    · -- Everything below the parts before comes before everything below the last one.
      intro first hfirst second hsecond
      rcases List.mem_map.mp hsecond with ⟨entry, _, rfl⟩
      rcases first with ⟨_ | ⟨i, place⟩, line⟩
      · exact List.nil_lt_cons _ _
      · have hi := lt_length_of_forest ((hmem _ _).mp hfirst)
        exact List.cons_lt_cons_iff.mpr (Or.inl hi)
  · intro place line
    rw [List.mem_append, hmem]
    cases place with
    | nil => simp [forest]
    | cons i place =>
        by_cases hi : i = parts.length
        · subst hi
          rw [forest_concat_last, <- hmem']
          have hnone : forest read parts (parts.length :: place) ≠ some (.text line) := by
            intro h
            exact (lt_length_of_forest h).false
          simp [hnone]
        · rw [forest_concat_of_ne parts part hi]
          simp [Ne.symm hi]
  · rw [List.map_append, List.map_map]
    rfl

/-- Parts are expanded one after another, and the first failure is the failure of all. -/
theorem Tells.concat {parts : List Part} {part : Part}
    {x y : Except IncludeError (List String)}
    (hx : Tells read limit depth (forest read parts) x)
    (hy : Tells read limit (depth + 1) (part.unfolding read) y) :
    Tells read limit depth (forest read (parts ++ [part])) (do return (<- x) ++ (<- y)) := by
  cases hx with
  | error first => exact .error (first.concat part)
  | ok faultless flattens =>
      cases hy with
      | error first => exact .error (.concat_last faultless first)
      | ok faultless' flattens' =>
          refine .ok ?_ (flattens.concat flattens')
          intro place
          cases place with
          | nil => rfl
          | cons i place =>
              by_cases hi : i = parts.length
              · rw [hi, faultAt?_concat_last]
                exact faultless' place
              · rw [faultAt?_concat_of_ne parts part hi]
                exact faultless _

theorem flatten_mapM_concat (f : Part -> Except IncludeError (List String)) (parts : List Part)
    (part : Part) :
    ((parts ++ [part]).mapM f).map List.flatten =
      (do return (<- (parts.mapM f).map List.flatten) ++ (<- f part)) := by
  rw [List.mapM_append, List.mapM_cons, List.mapM_nil]
  cases parts.mapM f with
  | error e => rfl
  | ok lss =>
      cases f part with
      | error e => rfl
      | ok ls =>
          show Except.ok (lss ++ [ls]).flatten = Except.ok (lss.flatten ++ ls)
          simp

theorem tells_forest {f : Part -> Except IncludeError (List String)} {parts : List Part}
    (h : forall part, part ∈ parts -> Tells read limit (depth + 1) (part.unfolding read) (f part)) :
    Tells read limit depth (forest read parts) ((parts.mapM f).map List.flatten) := by
  induction parts using List.reverseRecOn with
  | nil =>
      refine .ok ?_ ⟨[], .nil, ?_, .nil⟩
      · intro place
        cases place with
        | nil => rfl
        | cons i place => rfl
      · intro place line
        cases place with
        | nil => simp [forest]
        | cons i place => simp [forest]
  | append_singleton parts part ih =>
      rw [flatten_mapM_concat]
      apply Tells.concat
      · exact ih fun part hpart => h part (List.mem_append_left _ hpart)
      · exact h part (List.mem_append_right _ (List.mem_singleton_self part))

/-- A part that is no line and has no fault itself is told about by the parts below it. -/
theorem Tells.of_below {part : Part} {x : Except IncludeError (List String)}
    (hpart : part.fault? read limit depth = none) (htext : forall line, part ≠ .text line)
    (h : Tells read limit depth (forest read (part.below read)) x) :
    Tells read limit depth (part.unfolding read) x := by
  have hfault : forall place, faultAt? read limit depth (part.unfolding read) place =
      faultAt? read limit depth (forest read (part.below read)) place := by
    intro place
    cases place with
    | nil => exact hpart
    | cons i place => rfl
  have hline : forall place line, part.unfolding read place = some (.text line) <->
      forest read (part.below read) place = some (.text line) := by
    intro place line
    cases place with
    | nil => simp [Part.unfolding, forest, htext line]
    | cons i place => rfl
  cases h with
  | ok faultless flattens =>
      rcases flattens with ⟨entries, hsorted, hmem, heq⟩
      refine .ok (fun place => (hfault place).trans (faultless place)) ⟨entries, hsorted, ?_, heq⟩
      intro place line
      rw [hmem, hline]
  | error first =>
      rcases first with ⟨place, hplace, hbefore⟩
      exact .error ⟨place, (hfault place).trans hplace,
        fun earlier hlt => (hfault earlier).trans (hbefore earlier hlt)⟩

theorem Tells.of_fault {part : Part} {e : IncludeError}
    (h : part.fault? read limit depth = some e) :
    Tells read limit depth (part.unfolding read) (.error e) :=
  .error ⟨[], h, fun earlier hlt => (List.not_lt_nil earlier hlt).elim⟩

/-!
# Expansion
-/

namespace Part

/-- The lines that a part stands for, when `levels` more levels are allowed. -/
def expand (read : Reader) (limit levels : Nat) : Part -> Except IncludeError (List String)
  | .text line => .ok [Source.normalize line]
  | .nameless path number => .error (.missingPath (some path) number)
  | .file path => expandIncluded read limit levels path

theorem expandLine_eq_expand (levels : Nat) (path : String) (line : String × Nat) :
    expandLine (Path.parent path) (some path) (expandIncluded read limit levels) line =
      (ofLine path line).expand read limit levels := by
  unfold expandLine ofLine
  cases path? (Source.stripComment line.1) with
  | none => rfl
  | some target =>
      by_cases hempty : target.isEmpty
      · simp only [hempty, if_true]
        rfl
      · simp only [hempty]
        rfl

theorem below_file {path content : String} (hread : read path = .ok content) :
    (file path).below read = ((Text.lines content).zipIdx 1).map (ofLine path) := by
  simp only [below, hread]

theorem expand_file {path content : String} (hread : read path = .ok content) (levels : Nat) :
    (file path).expand read limit (levels + 1) =
      (((file path).below read).mapM (expand read limit levels)).map List.flatten := by
  have hexpand : (file path).expand read limit (levels + 1) =
      expandText (Path.parent path) (some path) (expandIncluded read limit levels) content := by
    simp only [expand, expandIncluded, expandWith, hread]
  have hlines : ((Text.lines content).zipIdx 1).mapM
        (expandLine (Path.parent path) (some path) (expandIncluded read limit levels)) =
      ((Text.lines content).zipIdx 1).mapM (expand read limit levels ∘ ofLine path) := by
    apply mapM_congr
    intro line _
    rw [expandLine_eq_expand, Function.comp_apply]
  rw [hexpand, below_file hread, List.mapM_map, expandText, hlines]

theorem tells_text (line : String) :
    Tells read limit depth ((text line).unfolding read) (.ok [Source.normalize line]) := by
  have hline : List.Forall₂ (fun entry text => Source.Prepares entry.2 text)
      [(([] : Place), line)] [Source.normalize line] :=
    .cons (Source.prepares_iff.mpr rfl) .nil
  refine .ok ?_ ⟨[([], line)], List.pairwise_singleton _ _, ?_, hline⟩
  · intro place
    cases place with
    | nil => rfl
    | cons i place => rfl
  · intro place line'
    cases place with
    | nil => simp [unfolding, eq_comm]
    | cons i place => simp [unfolding, below]

/-- Lines and include lines without a path are settled by themselves; only files are left. -/
theorem tells_of_files {levels : Nat}
    (h : forall path, Tells read limit depth ((file path).unfolding read)
      ((file path).expand read limit levels)) (part : Part) :
    Tells read limit depth (part.unfolding read) (part.expand read limit levels) := by
  cases part with
  | text line => exact tells_text line
  | nameless path number => exact .of_fault rfl
  | file path => exact h path

/-- The levels that are left and the depth that is reached make up the limit. -/
theorem tells_file {levels : Nat} (h : depth + levels = limit + 1) (path : String) :
    Tells read limit depth ((file path).unfolding read)
      ((file path).expand read limit levels) := by
  induction levels generalizing depth path with
  | zero =>
      have hdeep : limit < depth := by omega
      exact .of_fault (by simp [fault?, hdeep])
  | succ levels ih =>
      have hshallow : ¬ limit < depth := by omega
      cases hread : read path with
      | error cause =>
          have herror : (file path).expand read limit (levels + 1) =
              .error (.unreadable path cause) := by
            simp only [expand, expandIncluded, expandWith, hread]
          rw [herror]
          exact .of_fault (by simp [fault?, hshallow, hread])
      | ok content =>
          have hbelow : forall inner, Tells read limit (depth + 1) ((file inner).unfolding read)
              ((file inner).expand read limit levels) :=
            fun inner => ih (by omega) inner
          rw [expand_file hread]
          apply Tells.of_below
          · simp [fault?, hshallow, hread]
          · intro line hline
            cases hline
          · exact tells_forest fun part _ => tells_of_files hbelow part

end Part

/-!
# Complete unfoldings
-/

theorem unfolding_append (part : Part) (p q : Place) :
    part.unfolding read (p ++ q) =
      (part.unfolding read p).bind fun inner => inner.unfolding read q := by
  induction p generalizing part with
  | nil => rfl
  | cons i p ih =>
      simp only [List.cons_append, Part.unfolding]
      cases (part.below read)[i]? with
      | none => rfl
      | some child => exact ih child

/-- Only a file has parts below it. -/
theorem exists_file_of_unfolding_cons {part inner : Part} {i : Nat} {place : Place}
    (h : part.unfolding read (i :: place) = some inner) : exists path, part = .file path := by
  cases part with
  | text line => cases h
  | nameless path number => cases h
  | file path => exact ⟨path, rfl⟩

/-- On the way down to a part that lies too deep stands a file that lies one level too deep. -/
theorem exists_file_below_limit {root : Part} {place : Place} {path : String}
    (h : root.unfolding read place = some (.file path)) (hdeep : limit < place.length) :
    exists upper i path', upper.length = limit ∧
      root.unfolding read (upper ++ [i]) = some (.file path') := by
  have hsplit := List.take_append_drop (limit + 1) place
  have hupper : (place.take (limit + 1)).length = limit + 1 := by
    rw [List.length_take]
    omega
  rcases List.eq_nil_or_concat' (place.take (limit + 1)) with hnil | ⟨upper, i, hconcat⟩
  · rw [hnil] at hupper
    cases hupper
  · rw [hconcat] at hsplit hupper
    rw [<- hsplit, unfolding_append] at h
    rcases Option.bind_eq_some_iff.mp h with ⟨part, hpart, hrest⟩
    have hfile : exists path', part = .file path' := by
      cases hdrop : place.drop (limit + 1) with
      | nil =>
          rw [hdrop] at hrest
          exact ⟨path, Option.some.inj hrest⟩
      | cons j rest =>
          rw [hdrop] at hrest
          exact exists_file_of_unfolding_cons hrest
    rcases hfile with ⟨path', rfl⟩
    exact ⟨upper, i, path', by simpa using hupper, hpart⟩

theorem complete_iff_faultless {root : String} :
    Complete read limit root <->
      forall place, faultAt? read limit 0 (unfolding read root) place = none := by
  constructor
  · intro h place
    rw [faultAt?, Option.bind_eq_none_iff, Nat.zero_add]
    intro part hpart
    cases part with
    | text line => rfl
    | nameless path number => exact (h.named place path number hpart).elim
    | file path =>
        have hshallow : ¬ limit < place.length := by
          intro hdeep
          rcases exists_file_below_limit hpart hdeep with ⟨upper, i, path', hlength, hfile⟩
          exact h.shallow upper i path' hlength hfile
        rcases h.readable place path hpart with ⟨text, hread⟩
        simp [Part.fault?, hshallow, hread]
  · intro h
    have hnone : forall place part, unfolding read root place = some part ->
        part.fault? read limit place.length = none := by
      intro place part hpart
      simpa [faultAt?, hpart] using h place
    constructor
    · intro place path hpath
      have hfault := hnone place _ hpath
      cases hread : read path with
      | ok text => exact ⟨text, rfl⟩
      | error cause =>
          simp only [Part.fault?, hread] at hfault
          split at hfault <;> cases hfault
    · intro place path number hpart
      cases hnone place _ hpart
    · intro place i path hlength hpart
      have hfault := hnone _ _ hpart
      simp [Part.fault?, hlength] at hfault

/-!
# The tree of a file

How an unfolding is built fixes the part at each place, by induction on the way from the root.
-/

theorem below_getElem?_eq_some_iff {part child : Part} {i : Nat} :
    (part.below read)[i]? = some child <->
      exists path content line, part = .file path ∧ read path = .ok content ∧
        (Text.lines content)[i]? = some line ∧ child.StandsFor path (line, i + 1) := by
  cases part with
  | text line => simp [Part.below]
  | nameless path number => simp [Part.below]
  | file path =>
      cases hread : read path with
      | error cause => simp [Part.below, hread]
      | ok content => simp [Part.below_file hread, Part.standsFor_iff, hread, Nat.add_comm]

theorem unfolding_concat_eq_some_iff {root : String} {place : Place} {i : Nat} {part : Part} :
    unfolding read root (place ++ [i]) = some part <->
      exists (path content line : String) (lines : List String),
        unfolding read root place = some (.file path) ∧ read path = .ok content ∧
          Text.AreLines content.toList (lines.map String.toList) ∧ lines[i]? = some line ∧
            part.StandsFor path (line, i + 1) := by
  have hchild (inner : Part) : inner.unfolding read [i] = (inner.below read)[i]? :=
    Option.bind_fun_some _
  rw [unfolding, unfolding_append, Option.bind_eq_some_iff]
  simp only [hchild, below_getElem?_eq_some_iff, Text.areLines_iff_lines]
  constructor
  · rintro ⟨_, hinner, path, content, line, rfl, hread, hline⟩
    exact ⟨path, content, line, _, hinner, hread, rfl, hline⟩
  · rintro ⟨path, content, line, _, hinner, hread, rfl, hline⟩
    exact ⟨_, hinner, path, content, line, rfl, hread, hline⟩

theorem isUnfolding_iff {root : String} {tree : Tree} :
    IsUnfolding read root tree <-> tree = unfolding read root := by
  constructor
  · intro h
    funext place
    induction place using List.reverseRecOn with
    | nil => exact h.root
    | append_singleton place i ih =>
        apply Option.ext
        intro part
        rw [h.below, unfolding_concat_eq_some_iff, ih]
  · rintro rfl
    exact ⟨rfl, fun place i part => unfolding_concat_eq_some_iff⟩

end Trees

theorem tells_ofFile (read : Reader) (limit : Nat) (root : String) :
    Tells read limit 0 (unfolding read root) (ofFile read limit root) :=
  Part.tells_file (Nat.zero_add _) root

/--
Whatever the files include, expansion ends.  A file has one unfolding.  Expansion gives its
lines in order if it is complete, and otherwise fails as the first fault in it.
-/
theorem ofFile_flattens_unfolding (read : Reader) (limit : Nat) (root : String) :
    (forall tree, IsUnfolding read root tree <-> tree = unfolding read root) ∧
    (forall lines, ofFile read limit root = .ok lines <->
      Complete read limit root ∧ Flattens (unfolding read root) lines) ∧
    (forall e, ofFile read limit root = .error e <->
      FirstFault read limit 0 (unfolding read root) e) ∧
    (Complete read limit root ∨ exists e, FirstFault read limit 0 (unfolding read root) e) := by
  have htells := tells_ofFile read limit root
  rw [complete_iff_faultless]
  exact ⟨fun tree => isUnfolding_iff, fun lines => htells.eq_ok_iff,
    fun e => htells.eq_error_iff, htells.faultless_or_first⟩

example : ofFile (fun _ => .ok "nop ; again\n.include lib/self") 2 "self" =
    .error (.tooDeep "lib/lib/lib/self" 2) := by
  decide +kernel

end Include
end Asm65
