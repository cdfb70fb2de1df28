import Asm65.Path
import Mathlib.Data.List.DropRight
import Mathlib.Data.List.Basic

/-!
# Paths by their pieces

A path is read here as the pieces between its slashes.  The first piece says where the path
starts, and its last name is the last piece that leads anywhere.  The directory of a path is
what stands in front of that name, without the pieces at the end of it that lead nowhere.
-/

namespace Asm65
namespace Path

/-!
# Pieces
-/

/-- The pieces of a path: what stands between its slashes. -/
structure IsSplit (path : List Char) (ps : List (List Char)) : Prop where
  joined : ['/'].intercalate ps = path
  free : forall p, p ∈ ps -> '/' ∉ p
  nonempty : ps ≠ []

theorem pieces_cons (c : Char) (cs : List Char) :
    pieces (c :: cs) =
      if c = '/' then [] :: pieces cs
      else
        match pieces cs with
        | p :: ps => (c :: p) :: ps
        | [] => [[c]] :=
  rfl

theorem pieces_eq (cs : List Char) : pieces cs = cs.splitOn '/' := by
  induction cs with
  | nil => rfl
  | cons c cs ih =>
      rw [pieces_cons, ih, List.splitOn_cons_eq_if_modifyHead]
      simp only [beq_iff_eq]
      split
      · rfl
      · cases hsplit : cs.splitOn '/' with
        | nil => exact (List.splitOn_ne_nil '/' cs hsplit).elim
        | cons p ps => rfl

theorem not_mem_of_mem_pieces {cs p : List Char} (h : p ∈ pieces cs) : '/' ∉ p := by
  induction cs generalizing p with
  | nil =>
      rw [List.mem_singleton.mp h]
      exact List.not_mem_nil
  | cons c cs ih =>
      rw [pieces_cons] at h
      split at h
      · rcases List.mem_cons.mp h with rfl | htail
        · exact List.not_mem_nil
        · exact ih htail
      · next hc =>
          split at h
          · next first rest hpieces =>
              rw [hpieces] at ih
              rcases List.mem_cons.mp h with rfl | htail
              · have hfirst := ih List.mem_cons_self
                exact List.not_mem_cons_of_ne_of_not_mem (Ne.symm hc) hfirst
              · exact ih (List.mem_cons_of_mem first htail)
          · rw [List.mem_singleton.mp h]
            exact List.not_mem_cons_of_ne_of_not_mem (Ne.symm hc) List.not_mem_nil

theorem isSplit_pieces (path : List Char) : IsSplit path (pieces path) := by
  refine ⟨?_, fun p hp => not_mem_of_mem_pieces hp, ?_⟩
  · rw [pieces_eq, List.intercalate_splitOn]
  · rw [pieces_eq]
    exact List.splitOn_ne_nil '/' path

theorem isSplit_iff {path : List Char} {ps : List (List Char)} :
    IsSplit path ps <-> pieces path = ps := by
  constructor
  · intro h
    rw [pieces_eq, <- h.joined]
    exact List.splitOn_intercalate '/' h.free h.nonempty
  · rintro rfl
    exact isSplit_pieces path

/-!
# Directories
-/

/-- The pieces that lead nowhere. -/
def voids : List (List Char) :=
  [[], ['.']]

/-- The pieces `before` stand in front of the last name of a path, which void pieces may follow. -/
def Precede (before ps : List (List Char)) : Prop :=
  exists name after, ps = before ++ name :: after ∧ name ∉ voids ∧ forall p, p ∈ after -> p ∈ voids

/--
The directory of a path.  It is empty if the path has no name, or nothing in front of it.  The
first piece stays even if it leads nowhere: it is empty if the path starts at the root.
-/
inductive LiesIn (path : List Char) : List Char -> Prop where
  | nameless {ps : List (List Char)} :
      IsSplit path ps -> (forall p, p ∈ ps -> p ∈ voids) -> LiesIn path []
  | alone {ps : List (List Char)} : IsSplit path ps -> Precede [] ps -> LiesIn path []
  | root {gap ps : List (List Char)} :
      IsSplit path ps -> Precede ([] :: gap) ps -> (forall p, p ∈ gap -> p ∈ voids) ->
        LiesIn path ['/']
  | below {first : List Char} {dirs gap ps : List (List Char)} :
      IsSplit path ps -> Precede (first :: (dirs ++ gap)) ps -> (forall p, p ∈ gap -> p ∈ voids) ->
        (forall p, dirs.getLast? = some p -> p ∉ voids) -> first :: dirs ≠ [[]] ->
          LiesIn path (['/'].intercalate (first :: dirs))

theorem isVoid_iff {p : List Char} : isVoid p = true <-> p ∈ voids := by
  simp [isVoid, voids]

section Names

variable {before ps : List (List Char)}

/-- The pieces up to the last name. -/
def upToName (ps : List (List Char)) : List (List Char) :=
  ps.rdropWhile isVoid

theorem upToName_append {after : List (List Char)} (h : forall p, p ∈ after -> p ∈ voids) :
    upToName (ps ++ after) = upToName ps := by
  have hvoid : forall p, p ∈ after.reverse -> isVoid p = true :=
    fun p hp => isVoid_iff.mpr (h p (List.mem_reverse.mp hp))
  rw [upToName, List.rdropWhile, List.reverse_append, List.dropWhile_append_of_pos hvoid]
  rfl

theorem upToName_concat {name : List Char} (h : name ∉ voids) :
    upToName (ps ++ [name]) = ps ++ [name] :=
  List.rdropWhile_concat_neg isVoid ps name (mt isVoid_iff.mp h)

theorem upToName_eq_self (h : forall p, ps.getLast? = some p -> p ∉ voids) :
    upToName ps = ps := by
  rcases List.eq_nil_or_concat' ps with rfl | ⟨front, name, rfl⟩
  · rfl
  · exact upToName_concat (h name List.getLast?_concat)

theorem getLast?_upToName {p : List Char} (h : (upToName ps).getLast? = some p) :
    p ∉ voids := by
  have hne : upToName ps ≠ [] := by
    intro hnil
    rw [hnil] at h
    cases h
  rw [List.getLast?_eq_some_getLast hne] at h
  cases h
  exact mt isVoid_iff.mpr (List.rdropWhile_last_not isVoid ps hne)

theorem not_mem_of_upToName {name : List Char} (h : upToName ps = before ++ [name]) :
    name ∉ voids := by
  have hlast : (upToName ps).getLast? = some name := by
    rw [h, List.getLast?_concat]
  exact getLast?_upToName hlast

theorem exists_upToName (ps : List (List Char)) :
    exists after, ps = upToName ps ++ after ∧ forall p, p ∈ after -> p ∈ voids := by
  refine ⟨ps.rtakeWhile isVoid, ?_, fun p hp => isVoid_iff.mp (List.mem_rtakeWhile_imp hp)⟩
  rw [upToName, List.rdropWhile, List.rtakeWhile, <- List.reverse_append,
    List.takeWhile_append_dropWhile, List.reverse_reverse]

theorem upToName_eq_nil_iff : upToName ps = [] <-> forall p, p ∈ ps -> p ∈ voids := by
  simp only [upToName, List.rdropWhile_eq_nil_iff, isVoid_iff]

theorem precede_iff : Precede before ps <-> exists name, upToName ps = before ++ [name] := by
  constructor
  · rintro ⟨name, after, rfl, hname, hafter⟩
    exact ⟨name, by rw [List.append_cons, upToName_append hafter, upToName_concat hname]⟩
  · rintro ⟨name, hname⟩
    rcases exists_upToName ps with ⟨after, hps, hafter⟩
    refine ⟨name, after, ?_, not_mem_of_upToName hname, hafter⟩
    rw [List.append_cons, <- hname, <- hps]

theorem upToName_cons (p : List Char) (ps : List (List Char)) :
    upToName (p :: ps) = if upToName ps = [] then upToName [p] else p :: upToName ps := by
  split
  · next hnil =>
      rw [<- List.singleton_append]
      exact upToName_append (upToName_eq_nil_iff.mp hnil)
  · next hne =>
      rcases exists_upToName ps with ⟨after, hps, hafter⟩
      rcases List.eq_nil_or_concat' (upToName ps) with hnil | ⟨front, name, hname⟩
      · exact (hne hnil).elim
      · have hlast := not_mem_of_upToName hname
        rw [hps, hname, <- List.cons_append, upToName_append hafter, upToName_append hafter,
          upToName_concat hlast, <- List.cons_append, upToName_concat hlast]

theorem upToName_singleton {p : List Char} :
    upToName [p] = if p ∈ voids then [] else [p] := by
  rw [upToName, List.rdropWhile_singleton]
  simp only [isVoid_iff]

theorem upToName_cons_of_not_mem {p : List Char} (h : p ∉ voids) :
    upToName (p :: ps) = p :: upToName ps := by
  rw [upToName_cons]
  split
  · next hnil => rw [upToName_singleton, if_neg h, hnil]
  · rfl

theorem nameless_or_precede (ps : List (List Char)) :
    (forall p, p ∈ ps -> p ∈ voids) ∨ exists before, Precede before ps := by
  rcases List.eq_nil_or_concat' (upToName ps) with hnil | ⟨before, name, hname⟩
  · exact Or.inl (upToName_eq_nil_iff.mp hnil)
  · exact Or.inr ⟨before, precede_iff.mpr ⟨name, hname⟩⟩

/-- The directory that is left of the pieces in front of the last name. -/
def directory : List (List Char) -> List Char
  | [] => []
  | first :: before =>
      if first :: upToName before = [[]] then ['/']
      else ['/'].intercalate (first :: upToName before)

/-- The pieces in front of the last name, and none if there is no name. -/
def beforeName (ps : List (List Char)) : List (List Char) :=
  (upToName ps).dropLast

theorem beforeName_of_nameless (h : forall p, p ∈ ps -> p ∈ voids) : beforeName ps = [] := by
  rw [beforeName, upToName_eq_nil_iff.mpr h]
  rfl

theorem beforeName_of_precede (h : Precede before ps) : beforeName ps = before := by
  rcases precede_iff.mp h with ⟨name, hname⟩
  rw [beforeName, hname, List.dropLast_concat]

theorem beforeName_cons (p : List Char) (ps : List (List Char)) :
    beforeName (p :: ps) = if upToName ps = [] then [] else p :: beforeName ps := by
  rw [beforeName, upToName_cons]
  split
  · rw [upToName_singleton]
    split <;> rfl
  · next hne => exact List.dropLast_cons_of_ne_nil hne

end Names

theorem liesIn_iff_directory {path dir : List Char} :
    LiesIn path dir <-> directory (beforeName (pieces path)) = dir := by
  constructor
  · intro h
    cases h with
    | nameless hsplit hvoids =>
        rw [isSplit_iff.mp hsplit, beforeName_of_nameless hvoids]
        rfl
    | alone hsplit hname =>
        rw [isSplit_iff.mp hsplit, beforeName_of_precede hname]
        rfl
    | root hsplit hname hgap =>
        rw [isSplit_iff.mp hsplit, beforeName_of_precede hname, directory,
          upToName_eq_nil_iff.mpr hgap, if_pos rfl]
    | below hsplit hname hgap hlast hne =>
        rw [isSplit_iff.mp hsplit, beforeName_of_precede hname, directory, upToName_append hgap,
          upToName_eq_self hlast, if_neg hne]
  · rintro rfl
    have hsplit := isSplit_pieces path
    rcases nameless_or_precede (pieces path) with hvoids | ⟨before, hname⟩
    · rw [beforeName_of_nameless hvoids]
      exact .nameless hsplit hvoids
    · rw [beforeName_of_precede hname]
      cases before with
      | nil => exact .alone hsplit hname
      | cons first before =>
          rw [directory]
          split
          · next hroot =>
              rw [(List.cons.inj hroot).left] at hname
              exact .root hsplit hname (upToName_eq_nil_iff.mp (List.cons.inj hroot).right)
          · next hne =>
              rcases exists_upToName before with ⟨gap, hbefore, hgap⟩
              rw [hbefore] at hname
              exact .below hsplit hname hgap (fun p hp => getLast?_upToName hp) hne

/-!
# The parent of a path
-/

/-- A first piece that leads nowhere is set aside, and what follows it is the body of a path. -/
inductive Leads (path : List Char) : List Char -> List Char -> Prop where
  | root {body : List Char} : pieces path = [] :: pieces body -> Leads path ['/'] body
  | here {body : List Char} {rest : List (List Char)} :
      pieces path = ['.'] :: rest -> pieces body = [] :: rest -> Leads path ['.'] body
  | plain {first : List Char} {rest : List (List Char)} :
      pieces path = first :: rest -> (first ∈ voids -> first = [] ∧ rest = []) -> Leads path [] path

theorem leads_splitLead (path : List Char) :
    Leads path (splitLead path).1 (splitLead path).2 := by
  unfold splitLead
  split
  · exact .root rfl
  · exact .here rfl rfl
  · next body =>
      have hfree : '/' ∉ ['.'] := by decide
      have hdot : pieces ('.' :: '/' :: body) = ['.'] :: pieces body := by
        rw [pieces_eq, pieces_eq]
        exact List.splitOn_append_cons_self_of_not_mem hfree body
      exact .here hdot rfl
  · next hroot hdot hhere =>
      have hsplit := isSplit_pieces path
      cases hpieces : pieces path with
      | nil => exact (hsplit.nonempty hpieces).elim
      | cons first rest =>
          refine .plain hpieces ?_
          intro hvoid
          have hjoined := hsplit.joined
          rw [hpieces] at hjoined
          simp only [voids, List.mem_cons, List.not_mem_nil, or_false] at hvoid
          rcases hvoid with rfl | rfl
          · refine ⟨rfl, ?_⟩
            cases rest with
            | nil => rfl
            | cons second rest => exact (hroot _ hjoined.symm).elim
          · cases rest with
            | nil => exact (hdot hjoined.symm).elim
            | cons second rest => exact (hhere _ hjoined.symm).elim

theorem toList_parent (path : String) :
    (parent path).toList =
      if upToName (pieces (splitLead path.toList).2) = [] then []
      else
        (splitLead path.toList).1 ++
          ['/'].intercalate (upToName (beforeName (pieces (splitLead path.toList).2))) := by
  have hback : (pieces (splitLead path.toList).2).reverse.dropWhile isVoid =
      (upToName (pieces (splitLead path.toList).2)).reverse :=
    (List.reverse_reverse _).symm
  simp only [parent, hback, beforeName]
  rcases List.eq_nil_or_concat' (upToName (pieces (splitLead path.toList).2)) with
    hnil | ⟨before, name, hname⟩
  · rw [hnil]
    rfl
  · rw [hname, List.reverse_concat, if_neg (List.concat_ne_nil name before), List.dropLast_concat]
    exact String.toList_ofList

theorem toList_parent_eq_directory (path : String) :
    (parent path).toList = directory (beforeName (pieces path.toList)) := by
  rw [toList_parent]
  have hleads := leads_splitLead path.toList
  generalize (splitLead path.toList).1 = lead at hleads
  generalize (splitLead path.toList).2 = body at hleads
  cases hleads with
  | root hpieces =>
      rw [hpieces, beforeName_cons]
      split
      · rfl
      · rw [directory]
        cases upToName (beforeName (pieces body)) with
        | nil => rfl
        | cons p kept => simp [List.intercalate_cons_cons]
  | here hpieces hbody =>
      rename_i rest
      rw [hpieces, hbody, beforeName_cons, beforeName_cons, upToName_cons]
      by_cases hrest : upToName rest = []
      · rw [if_pos hrest, if_pos hrest, upToName_singleton, if_pos (by decide), if_pos hrest]
        rfl
      · rw [if_neg hrest, if_neg hrest, if_neg hrest, if_neg (List.cons_ne_nil _ _), directory,
          if_neg (by simp), upToName_cons]
        cases upToName (beforeName rest) with
        | nil => simp [upToName_singleton, voids]
        | cons p kept => simp [List.intercalate_cons_cons]
  | plain hpieces hfirst =>
      rename_i first rest
      rw [hpieces, beforeName_cons]
      by_cases hrest : upToName rest = []
      · rw [if_pos hrest]
        split <;> rfl
      · have hname : first ∉ voids := by
          intro hvoid
          rw [(hfirst hvoid).right] at hrest
          exact hrest rfl
        rw [if_neg hrest, upToName_cons_of_not_mem hname, if_neg (List.cons_ne_nil _ _), directory,
          upToName_cons_of_not_mem hname, if_neg]
        · rfl
        · intro hroot
          rw [(List.cons.inj hroot).left] at hname
          exact hname List.mem_cons_self

/-- The parent of a path is the directory that the path lies in. -/
theorem liesIn_iff {path : String} {dir : List Char} :
    LiesIn path.toList dir <-> (parent path).toList = dir := by
  rw [liesIn_iff_directory, toList_parent_eq_directory]

/-!
# Joined paths
-/

/-- A path as it is reached from a directory, which makes no difference to an absolute path. -/
inductive Joins (dir : List Char) : List Char -> List Char -> Prop where
  | absolute {rest : List Char} : Joins dir ('/' :: rest) ('/' :: rest)
  | bare {path : List Char} : dir = [] -> Joins dir path path
  | divided {path front : List Char} :
      path.head? ≠ some '/' -> dir = front ++ ['/'] -> Joins dir path (dir ++ path)
  | plain {path : List Char} :
      path.head? ≠ some '/' -> dir ≠ [] -> dir.getLast? ≠ some '/' ->
        Joins dir path (dir ++ '/' :: path)

theorem toList_join (base path : String) :
    (join base path).toList =
      if path.toList.head? = some '/' ∨ base.toList = [] then path.toList
      else if base.toList.getLast? = some '/' then base.toList ++ path.toList
      else base.toList ++ '/' :: path.toList := by
  simp only [join, isAbsolute, endsInSlash, Bool.or_eq_true, beq_iff_eq, String.isEmpty_iff,
    String.toList_eq_nil_iff]
  split
  · rfl
  · split
    · exact String.toList_append
    · rw [String.toList_append, String.toList_append, List.append_assoc]
      rfl

theorem joins_iff {base path : String} {joined : List Char} :
    Joins base.toList path.toList joined <-> (join base path).toList = joined := by
  rw [toList_join]
  generalize base.toList = dir
  generalize path.toList = path
  constructor
  · intro h
    cases h with
    | absolute => exact if_pos (Or.inl rfl)
    | bare hbare => exact if_pos (Or.inr hbare)
    | divided hhead hdir =>
        rw [if_neg, if_pos]
        · rw [hdir, List.getLast?_concat]
        · rintro (hslash | hnil)
          · exact hhead hslash
          · rw [hdir] at hnil
            exact List.concat_ne_nil _ _ hnil
    | plain hhead hne hlast => rw [if_neg (not_or_intro hhead hne), if_neg hlast]
  · rintro rfl
    split
    · next hpath =>
        rcases hpath with hhead | hnil
        · rcases List.head?_eq_some_iff.mp hhead with ⟨rest, rfl⟩
          exact .absolute
        · exact .bare hnil
    · next hpath =>
        rw [not_or] at hpath
        split
        · next hlast =>
            rcases List.getLast?_eq_some_iff.mp hlast with ⟨front, hfront⟩
            exact .divided hpath.left hfront
        · next hlast => exact .plain hpath.left hpath.right hlast

end Path
end Asm65
