import Asm65.Proofs.HexText
import Asm65.Proofs.Numerals
import Asm65.Proofs.Sorting
import Mathlib.Data.Set.List

/-!
# Runs of hexadecimal text

Only the runs of a text matter to how it is read, and they are known by where they stand: a
run lies between separators or the ends of the text.  A text can be read exactly if each of
its runs is a pair of digits.  It differs then from what is written for its bytes in the
separators alone.
-/

namespace Asm65
namespace HexText

/-!
# Where runs stand
-/

/-- The characters end with a separator, if there are any. -/
def Closes (before : List Char) : Prop :=
  forall c, before.getLast? = some c -> c ∈ separatorChars

/-- The characters begin with a separator, if there are any. -/
def Opens (after : List Char) : Prop :=
  forall c, after.head? = some c -> c ∈ separatorChars

/-- The run stands behind `start` characters, and would not be a run with any more of them. -/
def IsRunAt (cs : List Char) (start : Nat) (run : List Char) : Prop :=
  exists before after, cs = before ++ (run ++ after) ∧ before.length = start ∧ IsRun run ∧
    Closes before ∧ Opens after

/-- All runs of a text, in the order in which they stand. -/
def AreRuns (cs : List Char) (rs : List (List Char)) : Prop :=
  exists entries : List (Nat × List Char),
    entries.Pairwise (fun p q => p.1 < q.1) ∧
    (forall start run, (start, run) ∈ entries <-> IsRunAt cs start run) ∧
    rs = entries.map Prod.snd

theorem AreRuns.unique {cs : List Char} {rs rs' : List (List Char)} (h : AreRuns cs rs)
    (h' : AreRuns cs rs') : rs = rs' := by
  rcases h with ⟨entries, hsorted, hmem, rfl⟩
  rcases h' with ⟨entries', hsorted', hmem', rfl⟩
  have hsame : entries = entries' := by
    apply eq_of_rising hsorted hsorted'
    intro entry
    rw [hmem, hmem']
  rw [hsame]

theorem AreRuns.mem_iff {cs : List Char} {rs : List (List Char)} (h : AreRuns cs rs)
    {run : List Char} : run ∈ rs <-> exists start, IsRunAt cs start run := by
  rcases h with ⟨entries, _, hmem, rfl⟩
  rw [List.mem_map]
  constructor
  · intro hrun
    rcases hrun with ⟨⟨start, run⟩, hentry, rfl⟩
    exact ⟨start, (hmem start run).mp hentry⟩
  · intro hrun
    rcases hrun with ⟨start, hat⟩
    exact ⟨(start, run), (hmem start run).mpr hat, rfl⟩

/-!
# Finding runs

A text begins with a separator or with a run.  Behind either of them stand the other runs, at
places that are counted from there.
-/

theorem closes_append {before : List Char} (h : before ≠ []) (cs : List Char) :
    Closes (cs ++ before) <-> Closes before := by
  unfold Closes
  rw [List.getLast?_append_of_ne_nil cs h]

theorem closes_cons {c : Char} (h : c ∈ separatorChars) (before : List Char) :
    Closes (c :: before) <-> Closes before := by
  cases before with
  | nil =>
      constructor
      · intro _ d hd
        cases hd
      · intro _ d hd
        cases hd
        exact h
  | cons d before => exact closes_append (List.cons_ne_nil d before) [c]

theorem IsRun.not_closes {run : List Char} (h : IsRun run) : ¬ Closes run := by
  intro hcloses
  have hlast := List.getLast?_eq_some_getLast h.left
  exact h.right _ (List.getLast_mem h.left) (hcloses _ hlast)

theorem IsRun.not_opens {run : List Char} (h : IsRun run) (rest : List Char) :
    ¬ Opens (run ++ rest) := by
  intro hopens
  cases run with
  | nil => exact h.left rfl
  | cons c run =>
      exact h.right c List.mem_cons_self (hopens c rfl)

theorem IsRun.of_append {cs ds : List Char} (h : IsRun (cs ++ ds)) (hne : cs ≠ []) : IsRun cs :=
  ⟨hne, fun c hc => h.right c (List.mem_append_left ds hc)⟩

theorem isRunAt_separator {c : Char} (hc : c ∈ separatorChars) {cs run : List Char}
    {start : Nat} :
    IsRunAt (c :: cs) start run <-> exists s, start = s + 1 ∧ IsRunAt cs s run := by
  constructor
  · intro h
    rcases h with ⟨before, after, heq, hlength, hrun, hbefore, hafter⟩
    cases before with
    | nil =>
        -- a run at the very start would begin with the separator
        have hopens : Opens (run ++ after) := by
          rw [<- List.nil_append (run ++ after), <- heq]
          intro d hd
          cases hd
          exact hc
        exact (hrun.not_opens after hopens).elim
    | cons d before =>
        cases heq
        exact ⟨before.length, hlength.symm, before, after, rfl, rfl, hrun,
          (closes_cons hc before).mp hbefore, hafter⟩
  · intro h
    rcases h with ⟨_, rfl, before, after, rfl, rfl, hrun, hbefore, hafter⟩
    exact ⟨c :: before, after, rfl, rfl, hrun, (closes_cons hc before).mpr hbefore, hafter⟩

theorem isRunAt_append {first rest : List Char} (hfirst : IsRun first) (hrest : Opens rest)
    {start : Nat} {run : List Char} :
    IsRunAt (first ++ rest) start run <->
      (start = 0 ∧ run = first) ∨ exists s, start = s + first.length ∧ IsRunAt rest s run := by
  constructor
  · intro h
    rcases h with ⟨before, after, heq, hlength, hrun, hbefore, hafter⟩
    rcases List.append_eq_append_iff.mp heq with ⟨gap, rfl, rfl⟩ | ⟨last, rfl, hlast⟩
    · -- the run stands behind the first one, and a separator between the two
      have hgap : gap ≠ [] := by
        rintro rfl
        exact hrun.not_opens after hrest
      refine Or.inr ⟨gap.length, ?_, gap, after, rfl, rfl, hrun,
        (closes_append hgap first).mp hbefore, hafter⟩
      rw [<- hlength, List.length_append, Nat.add_comm]
    · -- a run that begins inside of the first one begins where the first one does
      have hnil : before = [] := by
        by_contra hne
        exact (hfirst.of_append hne).not_closes hbefore
      subst hnil
      rw [List.nil_append] at hfirst
      have hruns : runs (run ++ after) = runs (last ++ rest) := by
        rw [hlast]
      rw [runs_append hrun hafter, runs_append hfirst hrest] at hruns
      exact Or.inl ⟨hlength.symm, List.head_eq_of_cons_eq hruns⟩
  · intro h
    rcases h with ⟨rfl, rfl⟩ | ⟨_, rfl, before, after, rfl, rfl, hrun, hbefore, hafter⟩
    · exact ⟨[], rest, rfl, rfl, hfirst, (fun c hc => nomatch hc), hrest⟩
    · have hne : before ≠ [] := by
        rintro rfl
        exact hrun.not_opens after hrest
      refine ⟨first ++ before, after, ?_, ?_, hrun, (closes_append hne first).mpr hbefore, hafter⟩
      · rw [List.append_assoc]
      · rw [List.length_append, Nat.add_comm]

/-- Places that are counted from `k` characters further on. -/
def shift (k : Nat) (entries : List (Nat × List Char)) : List (Nat × List Char) :=
  entries.map fun entry => (entry.1 + k, entry.2)

theorem mem_shift {k start : Nat} {run : List Char} {entries : List (Nat × List Char)} :
    (start, run) ∈ shift k entries <-> exists s, start = s + k ∧ (s, run) ∈ entries := by
  simp only [shift, List.mem_map, Prod.exists, Prod.mk.injEq]
  constructor
  · intro h
    rcases h with ⟨s, _, hmem, rfl, rfl⟩
    exact ⟨s, rfl, hmem⟩
  · intro h
    rcases h with ⟨s, rfl, hmem⟩
    exact ⟨s, run, hmem, rfl, rfl⟩

theorem pairwise_shift {k : Nat} {entries : List (Nat × List Char)}
    (h : entries.Pairwise fun p q => p.1 < q.1) :
    (shift k entries).Pairwise fun p q => p.1 < q.1 :=
  List.pairwise_map.mpr (h.imp fun hlt => Nat.add_lt_add_right hlt k)

theorem map_snd_shift (k : Nat) (entries : List (Nat × List Char)) :
    (shift k entries).map Prod.snd = entries.map Prod.snd :=
  List.map_map

theorem AreRuns.separator {c : Char} (hc : c ∈ separatorChars) {cs : List Char}
    {rs : List (List Char)} (h : AreRuns cs rs) : AreRuns (c :: cs) rs := by
  rcases h with ⟨entries, hsorted, hmem, rfl⟩
  refine ⟨shift 1 entries, pairwise_shift hsorted, ?_, (map_snd_shift 1 entries).symm⟩
  intro start run
  simp only [mem_shift, hmem, isRunAt_separator hc]

theorem AreRuns.append {first rest : List Char} {rs : List (List Char)} (hfirst : IsRun first)
    (hrest : Opens rest) (h : AreRuns rest rs) : AreRuns (first ++ rest) (first :: rs) := by
  rcases h with ⟨entries, hsorted, hmem, rfl⟩
  refine ⟨(0, first) :: shift first.length entries, ?_, ?_, ?_⟩
  · refine List.pairwise_cons.mpr ⟨?_, pairwise_shift hsorted⟩
    intro entry hentry
    rcases mem_shift.mp hentry with ⟨s, hs, _⟩
    rw [hs]
    exact Nat.add_pos_right s (List.length_pos_iff.mpr hfirst.left)
  · intro start run
    simp only [List.mem_cons, Prod.mk.injEq, mem_shift, hmem, isRunAt_append hfirst hrest]
  · rw [List.map_cons, map_snd_shift]

/-- The runs that are taken from a text one by one are all that stand in it. -/
theorem areRuns_runs (cs : List Char) : AreRuns cs (runs cs) := by
  fun_induction runs cs with
  | case1 =>
      refine ⟨[], .nil, ?_, rfl⟩
      intro start run
      refine iff_of_false List.not_mem_nil ?_
      rintro ⟨before, after, heq, _, hrun, _⟩
      simp [hrun.left] at heq
  | case2 c cs hc ih => exact ih.separator (isSeparator_iff_mem.mp hc)
  | case3 c cs hc ih =>
      have hrun : IsRun (c :: cs.takeWhile fun d => !isSeparator d) := by
        refine ⟨List.cons_ne_nil _ _, List.forall_mem_cons.mpr ⟨?_, ?_⟩⟩
        · exact mt isSeparator_iff_mem.mpr hc
        · intro d hd
          have hinside := List.mem_takeWhile_imp hd
          exact isSeparator_eq_false_iff.mp (by simpa using hinside)
      have hopens : Opens (cs.dropWhile fun d => !isSeparator d) := by
        intro d hd
        have hhead := List.head?_dropWhile_not (fun d => !isSeparator d) cs
        rw [hd] at hhead
        exact isSeparator_iff_mem.mp (by simpa using hhead)
      have happend := ih.append hrun hopens
      rwa [List.cons_append, List.takeWhile_append_dropWhile] at happend

/-!
# Runs that are bytes
-/

/-- Two digits from `0` to `9` and `A` to `F`. -/
def IsPair (run : List Char) : Prop :=
  exists a b, run = [a, b] ∧ a ∈ Numeral.digitChars ∧ b ∈ Numeral.digitChars

theorem digit_of_value? {c : Char} {n : Nat} (h : Hex.value? c = some n) :
    n < 16 ∧ Hex.digit n = c := by
  have hall : (Numeral.digitChars.all fun c =>
      (Hex.value? c).all fun n => n < 16 && Hex.digit n == c) = true := by
    decide
  have hmem : c ∈ Numeral.digitChars := by
    rw [<- Numeral.isHexDigit_iff_mem, Hex.isDigit, h]
    rfl
  have hc := List.all_eq_true.mp hall c hmem
  simpa [h] using hc

/-- A pair of digits is read as the one byte for which it is written. -/
theorem byte?_eq_some_iff {run : List Char} {b : UInt8} :
    byte? run = some b <-> run = Hex.byte b := by
  constructor
  · intro h
    unfold byte? at h
    split at h
    · next high low =>
        rcases Option.bind_eq_some_iff.mp h with ⟨m, hm, hrest⟩
        rcases Option.bind_eq_some_iff.mp hrest with ⟨n, hn, hb⟩
        rcases digit_of_value? hm with ⟨hlt, rfl⟩
        rcases digit_of_value? hn with ⟨hlt', rfl⟩
        have hvalue : b.toNat = 16 * m + n := by
          rw [<- Option.some.inj hb]
          show (16 * m + n) % 256 = 16 * m + n
          omega
        have hhigh : (16 * m + n) / 16 = m := by omega
        have hlow : (16 * m + n) % 16 = n := by omega
        rw [Hex.byte, hvalue, hhigh, hlow]
    · cases h
  · intro h
    rw [h]
    exact byte?_byte b

theorem isPair_iff {run : List Char} : IsPair run <-> exists b, run = Hex.byte b := by
  constructor
  · intro h
    rcases h with ⟨high, low, rfl, hhigh, hlow⟩
    rw [<- Numeral.isHexDigit_iff_mem, Hex.isDigit, Option.isSome_iff_exists] at hhigh hlow
    rcases hhigh with ⟨m, hm⟩
    rcases hlow with ⟨n, hn⟩
    refine ⟨(16 * m + n).toUInt8, byte?_eq_some_iff.mp ?_⟩
    rw [byte?, hm, hn]
    rfl
  · intro h
    rcases h with ⟨b, rfl⟩
    have hb := b.toNat_lt
    refine ⟨_, _, rfl, ?_, ?_⟩
    · exact Numeral.isHexDigit_iff_mem.mp (Numeral.isHexDigit_digit (by omega))
    · exact Numeral.isHexDigit_iff_mem.mp (Numeral.isHexDigit_digit (by omega))

theorem mapM_byte?_eq_some_iff {rs : List (List Char)} {bytes : List UInt8} :
    rs.mapM byte? = some bytes <-> rs = bytes.map Hex.byte := by
  constructor
  · intro h
    induction rs generalizing bytes with
    | nil =>
        cases h
        rfl
    | cons run rs ih =>
        rw [List.mapM_cons] at h
        rcases Option.bind_eq_some_iff.mp h with ⟨b, hb, hrest⟩
        rcases Option.bind_eq_some_iff.mp hrest with ⟨bs, hbs, heq⟩
        rw [<- Option.some.inj heq, List.map_cons, <- ih hbs, <- byte?_eq_some_iff.mp hb]
  · intro h
    rw [h]
    exact mapM_byte?_byte bytes

/-- A text is read as some bytes exactly if its runs are what is written for these bytes. -/
theorem decode?_eq_some_iff {text : String} {bytes : List UInt8} :
    decode? text = some bytes <-> AreRuns text.toList (bytes.map Hex.byte) := by
  have hruns := areRuns_runs text.toList
  rw [decode?, mapM_byte?_eq_some_iff]
  constructor
  · intro h
    rwa [h] at hruns
  · exact hruns.unique

theorem isSome_decode?_iff {text : String} :
    (decode? text).isSome <-> forall start run, IsRunAt text.toList start run -> IsPair run := by
  have hruns := areRuns_runs text.toList
  rw [Option.isSome_iff_exists]
  constructor
  · intro h start run hrun
    rcases h with ⟨bytes, hbytes⟩
    have hmem := (decode?_eq_some_iff.mp hbytes).mem_iff.mpr ⟨start, hrun⟩
    rcases List.mem_map.mp hmem with ⟨b, _, rfl⟩
    exact isPair_iff.mpr ⟨b, rfl⟩
  · intro h
    have hbytes : runs text.toList ∈ Set.range (List.map Hex.byte) := by
      rw [Set.range_list_map]
      intro run hmem
      rcases hruns.mem_iff.mp hmem with ⟨start, hrun⟩
      rcases isPair_iff.mp (h start run hrun) with ⟨b, rfl⟩
      exact ⟨b, rfl⟩
    rcases hbytes with ⟨bytes, hbytes⟩
    rw [<- hbytes] at hruns
    exact ⟨bytes, decode?_eq_some_iff.mpr hruns⟩

theorem byte_injective : Function.Injective Hex.byte := by
  intro b b' h
  have hread := byte?_byte b
  rw [h, byte?_byte] at hread
  exact (Option.some.inj hread).symm

/-- What is written for bytes is what is written for their runs, joined by single spaces. -/
theorem encode_eq_intercalate (bytes : List UInt8) :
    encode bytes = " ".intercalate ((bytes.map Hex.byte).map String.ofList) := by
  apply String.toList_inj.mp
  rw [encode, String.toList_ofList, String.toList_intercalate, List.map_map]
  simp [Function.comp_def]

/--
Bytes are read back from what is written for them.  A text can be read exactly if all of its
runs are pairs of digits; what is written for its bytes are its runs with single spaces between
them, so that texts with the same runs, and no others, are read as the same bytes.
-/
theorem decode?_depends_on_runs :
    (forall bytes, decode? (encode bytes) = some bytes) ∧
    (forall text : String, ∃! rs, AreRuns text.toList rs) ∧
    (forall text, (decode? text).isSome <->
      forall start run, IsRunAt text.toList start run -> IsPair run) ∧
    (forall text bytes rs, decode? text = some bytes -> AreRuns text.toList rs ->
      encode bytes = " ".intercalate (rs.map String.ofList)) ∧
    (forall text text' bytes bytes' rs rs', decode? text = some bytes ->
      decode? text' = some bytes' -> AreRuns text.toList rs -> AreRuns text'.toList rs' ->
        (bytes = bytes' <-> rs = rs')) := by
  refine ⟨decode?_encode, ?_, fun text => isSome_decode?_iff, ?_, ?_⟩
  · intro text
    exact ⟨runs text.toList, areRuns_runs text.toList, fun rs h => h.unique (areRuns_runs _)⟩
  · intro text bytes rs h hrs
    rw [hrs.unique (decode?_eq_some_iff.mp h)]
    exact encode_eq_intercalate bytes
  · intro text text' bytes bytes' rs rs' h h' hrs hrs'
    rw [hrs.unique (decode?_eq_some_iff.mp h), hrs'.unique (decode?_eq_some_iff.mp h')]
    exact (List.map_injective_iff.mpr byte_injective).eq_iff.symm

/-- Separators of all kinds, around and between the runs. -/
theorem scatteredPairs_decoded :
    decode? "\x0cA9\r\n01 \t00 " = some [0xA9, 1, 0] ∧
      AreRuns "\x0cA9\r\n01 \t00 ".toList [['A', '9'], ['0', '1'], ['0', '0']] ∧
      encode [0xA9, 1, 0] = "A9 01 00" := by
  have hdecode : decode? "\x0cA9\r\n01 \t00 " = some [0xA9, 1, 0] := by
    decide +kernel
  have hruns : AreRuns "\x0cA9\r\n01 \t00 ".toList [['A', '9'], ['0', '1'], ['0', '0']] :=
    decode?_eq_some_iff.mp hdecode
  exact ⟨hdecode, hruns, decode?_depends_on_runs.right.right.right.left _ _ _ hdecode hruns⟩

end HexText
end Asm65
