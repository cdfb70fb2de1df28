import Asm65.FileTree
import Asm65.Proofs.Outcome

/-!
# Replacing a file

A file is written to a place whose directory exists.  So writing makes no directory and takes
none away, and every path that led somewhere still leads there.
-/

namespace Asm65
namespace FileTree

/-- The file at `place` holds `bytes` now, and nothing else has changed. -/
structure Replaces (before after : FileTree) (place : Place) (bytes : ByteArray) : Prop where
  written : after.contents? place = some bytes
  others : forall q, q ≠ place -> after.contents? q = before.contents? q
  directories : forall q, after.isDirectory q = before.isDirectory q

/-!
# Directories
-/

theorem isDirectory_iff {t : FileTree} {p : Place} :
    t.isDirectory p = true <->
      (forall name, name ∈ p -> name = "..") ∨ p = ["/"] ∨
        (exists d, d ∈ t.directories ∧ p <+: d) ∨
        exists f, f ∈ t.files ∧ p <+: f.1 ∧ p ≠ f.1 := by
  simp [isDirectory, or_assoc]

/-- A directory lies in directories only. -/
theorem isDirectory_of_prefix {t : FileTree} {p q : Place} (h : t.isDirectory p = true)
    (hq : q <+: p) : t.isDirectory q = true := by
  rw [isDirectory_iff] at h ⊢
  rcases h with hup | rfl | ⟨d, hd, hp⟩ | ⟨f, hf, hp, hne⟩
  · exact Or.inl fun name hname => hup name (hq.subset hname)
  · rcases List.prefix_cons_iff.mp hq with rfl | ⟨rest, rfl, hrest⟩
    · exact Or.inl fun name hname => (List.not_mem_nil hname).elim
    · rw [List.prefix_nil.mp hrest]
      exact Or.inr (Or.inl rfl)
  · exact Or.inr (Or.inr (Or.inl ⟨d, hd, hq.trans hp⟩))
  · refine Or.inr (Or.inr (Or.inr ⟨f, hf, hq.trans hp, ?_⟩))
    rintro rfl
    exact hne (hp.eq_of_length_le hq.length_le)

/-- A file in a directory makes no other directory. -/
theorem isDirectory_insert {t : FileTree} {p : Place} (h : t.isDirectory p = true)
    (name : String) (bytes : ByteArray) (q : Place) :
    (t.insert (p ++ [name]) bytes).isDirectory q = t.isDirectory q := by
  rw [Bool.eq_iff_iff]
  constructor
  · intro hq
    rcases isDirectory_iff.mp hq with hup | hroot | hlisted | ⟨f, hf, hprefix, hne⟩
    · exact isDirectory_iff.mpr (Or.inl hup)
    · exact isDirectory_iff.mpr (Or.inr (Or.inl hroot))
    · exact isDirectory_iff.mpr (Or.inr (Or.inr (Or.inl hlisted)))
    · rcases List.mem_cons.mp hf with rfl | hf
      · rcases List.prefix_concat_iff.mp hprefix with hsame | hp
        · exact (hne hsame).elim
        · exact isDirectory_of_prefix h hp
      · exact isDirectory_iff.mpr
          (Or.inr (Or.inr (Or.inr ⟨f, (List.mem_filter.mp hf).left, hprefix, hne⟩)))
  · intro hq
    rw [isDirectory_iff] at hq ⊢
    rcases hq with hup | hroot | hlisted | ⟨f, hf, hprefix, hne⟩
    · exact Or.inl hup
    · exact Or.inr (Or.inl hroot)
    · exact Or.inr (Or.inr (Or.inl hlisted))
    · -- the file that is replaced lies in the same directories
      by_cases hplace : f.1 = p ++ [name]
      · rw [hplace] at hprefix hne
        exact Or.inr (Or.inr (Or.inr ⟨_, List.mem_cons_self, hprefix, hne⟩))
      · have hkept : f ∈ t.files.filter fun g => g.1 != p ++ [name] :=
          List.mem_filter.mpr ⟨hf, bne_iff_ne.mpr hplace⟩
        exact Or.inr (Or.inr (Or.inr ⟨f, List.mem_cons_of_mem _ hkept, hprefix, hne⟩))

/-!
# Contents
-/

theorem lookup_filter_ne {p q : Place} (h : q ≠ p) (files : List (Place × ByteArray)) :
    (files.filter fun f => f.1 != p).lookup q = files.lookup q := by
  induction files with
  | nil => rfl
  | cons f files ih =>
      rcases f with ⟨r, bytes⟩
      by_cases hr : r = p
      · subst hr
        have hne : (q == r) = false := beq_eq_false_iff_ne.mpr h
        simp [List.lookup_cons, hne, ih]
      · simp [List.lookup_cons, hr, ih]

theorem replaces_insert {t : FileTree} {p : Place} (h : t.isDirectory p = true) (name : String)
    (bytes : ByteArray) : t.Replaces (t.insert (p ++ [name]) bytes) (p ++ [name]) bytes where
  written := List.lookup_cons_self
  others q hq := by
    have hne : (q == p ++ [name]) = false := beq_eq_false_iff_ne.mpr hq
    change List.lookup q (_ :: _) = t.files.lookup q
    rw [List.lookup_cons, hne]
    exact lookup_filter_ne hq t.files
  directories := isDirectory_insert h name bytes

/-!
# Paths
-/

theorem enter_eq_ok_iff {t : FileTree} {p q : Place} {name : String} :
    t.enter p name = .ok q <->
      t.isDirectory p = true ∧
        (name = "." ∧ p = q ∨
          name ≠ "." ∧ name = ".." ∧ above p = q ∨
          name ≠ "." ∧ name ≠ ".." ∧ ¬ name.utf8ByteSize > maxNameSize ∧ p ++ [name] = q ∧
            (t.isDirectory q = true ∨ (t.contents? q).isSome = true)) := by
  unfold enter
  split
  · next hp => simp_all
  · next hp =>
      split
      · next hdot => simp_all
      · next hdot =>
          split
          · next hup => simp_all
          · next hup =>
              split
              · next hlong => simp_all
              · next hshort =>
                  have hdirectory : t.isDirectory p = true := by simpa using hp
                  constructor
                  · intro h
                    simp only at h
                    split at h
                    · next hthere =>
                        cases h
                        exact ⟨hdirectory, Or.inr (Or.inr
                          ⟨hdot, hup, hshort, rfl, Bool.or_eq_true_iff.mp hthere⟩)⟩
                    · cases h
                  · intro h
                    rcases h.right with ⟨hname, _⟩ | ⟨_, hname, _⟩ | ⟨_, _, _, rfl, hthere⟩
                    · exact (hdot hname).elim
                    · exact (hup hname).elim
                    · exact if_pos (Bool.or_eq_true_iff.mpr hthere)

/-- A name that leads somewhere leads there when a file has been written, too. -/
theorem Replaces.enter {before after : FileTree} {place : Place} {bytes : ByteArray}
    (h : before.Replaces after place bytes) {p q : Place} {name : String}
    (henter : before.enter p name = .ok q) : after.enter p name = .ok q := by
  rw [enter_eq_ok_iff] at henter ⊢
  rw [h.directories, h.directories]
  refine ⟨henter.left, ?_⟩
  rcases henter.right with hdot | hup | ⟨hdot, hup, hshort, hq, hthere⟩
  · exact Or.inl hdot
  · exact Or.inr (Or.inl hup)
  · refine Or.inr (Or.inr ⟨hdot, hup, hshort, hq, ?_⟩)
    by_cases hplace : q = place
    · rw [hplace, h.written]
      exact Or.inr rfl
    · rw [h.others q hplace]
      exact hthere

theorem Replaces.walk {before after : FileTree} {place : Place} {bytes : ByteArray}
    (h : before.Replaces after place bytes) {p q : Place} {names : List String}
    (hwalk : before.walk p names = .ok q) : after.walk p names = .ok q := by
  induction names generalizing p with
  | nil => exact hwalk
  | cons name names ih =>
      rcases foldlM_cons_eq_ok_iff.mp hwalk with ⟨r, henter, hrest⟩
      exact foldlM_cons_eq_ok_iff.mpr ⟨r, h.enter henter, ih hrest⟩

/-- Where a file can be written: in a directory, and under a name that a file can have. -/
structure CanWrite (t : FileTree) (path : String) (p : Place) (name : String) : Prop where
  checked : checkPath path = .ok ()
  named : (Path.names path).getLast? = some name
  walked : t.walk (startOf path) (Path.names path).dropLast = .ok p
  inside : t.isDirectory p = true
  proper : ¬ (name = "." ∨ name = ".." ∨ Path.endsInSlash path = true)
  short : ¬ name.utf8ByteSize > maxNameSize

theorem canWrite_of_placeToWrite {t : FileTree} {path : String} {place : Place}
    (h : t.placeToWrite path = .ok place) :
    exists p name, place = p ++ [name] ∧ t.CanWrite path p name := by
  unfold placeToWrite at h
  rcases bind_eq_ok_iff.mp h with ⟨_, hchecked, h⟩
  split at h
  · cases h
  · next name hname =>
      rcases bind_eq_ok_iff.mp h with ⟨p, hwalk, h⟩
      split at h
      · cases h
      · next hinside =>
          split at h
          · cases h
          · next hproper =>
              split at h
              · cases h
              · next hshort =>
                  split at h
                  · cases h
                  · cases h
                    exact ⟨p, name, rfl, hchecked, hname, hwalk, by simpa using hinside, hproper,
                      hshort⟩

/-- The file that has been written is the one at the path. -/
theorem Replaces.readBytes {before after : FileTree} {path name : String} {p : Place}
    {bytes : ByteArray} (hwrite : before.CanWrite path p name)
    (h : before.Replaces after (p ++ [name]) bytes) : after.readBytes path = .ok bytes := by
  have hinside : after.enter p name = .ok (p ++ [name]) := by
    rw [enter_eq_ok_iff, h.directories, h.written]
    have hproper := not_or.mp hwrite.proper
    exact ⟨hwrite.inside, Or.inr (Or.inr
      ⟨hproper.left, (not_or.mp hproper.right).left, hwrite.short, rfl, Or.inr rfl⟩)⟩
  have hwalk : after.walk (startOf path) (Path.names path) = .ok (p ++ [name]) := by
    rcases List.getLast?_eq_some_iff.mp hwrite.named with ⟨names, hnames⟩
    have hdirectory := h.walk hwrite.walked
    rw [hnames, List.dropLast_concat] at hdirectory
    rw [hnames, FileTree.walk, List.foldlM_append]
    exact bind_eq_ok_iff.mpr ⟨p, hdirectory, foldlM_cons_eq_ok_iff.mpr ⟨_, hinside, rfl⟩⟩
  have hslash : ¬ Path.endsInSlash path = true :=
    (not_or.mp (not_or.mp hwrite.proper).right).right
  refine bind_eq_ok_iff.mpr ⟨(), hwrite.checked, bind_eq_ok_iff.mpr ⟨p ++ [name], hwalk, ?_⟩⟩
  simp only [h.written, if_neg hslash]
  rfl

end FileTree
end Asm65
