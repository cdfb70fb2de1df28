import Asm65.Proofs.FileTree
import Asm65.Proofs.HexText
import Asm65.Proofs.Positions

/-!
# Runs are all or nothing

Nothing is written before the source has been put together, scanned and assembled.  So a run
either fails and leaves every file as it was, or it goes through and replaces one file.  What is
printed then is the same bytes that are in this file.
-/

namespace Asm65

open CommandLine (Options)

/-!
# Cutting zeros
-/

namespace Image

/-- What follows the longest run of zeros at the start of an image. -/
def CutsTo (image cut : Image) : Prop :=
  exists zeros, image.toList = zeros ++ cut.toList ∧ (forall b, b ∈ zeros -> b = 0) ∧
    cut.toList.head? ≠ some 0

theorem toList_cutLeadingZeros (image : Image) :
    image.cutLeadingZeros.toList = image.toList.dropWhile (· == 0) := by
  rcases image with ⟨bytes⟩
  rw [List.dropWhile_eq_drop_findIdx_not]
  unfold cutLeadingZeros
  rw [List.findIdx_toArray, Array.toList_extract]
  exact List.take_of_length_le (List.length_drop ▸ Nat.le_refl _)

theorem cutsTo_cutLeadingZeros (image : Image) : image.CutsTo image.cutLeadingZeros := by
  refine ⟨image.toList.takeWhile (· == 0), ?_, ?_, ?_⟩
  · rw [toList_cutLeadingZeros, List.takeWhile_append_dropWhile]
  · intro b hb
    have hzero := List.mem_takeWhile_imp hb
    exact beq_iff_eq.mp hzero
  · intro hzero
    have hhead := List.head?_dropWhile_not (· == 0) image.toList
    rw [<- toList_cutLeadingZeros, hzero] at hhead
    exact absurd hhead (by decide)

end Image

/-!
# Builds
-/

namespace Build

variable {read : Include.Reader} {o : Options}

/-- A build fails if any of its stages does. -/
theorem exists_report_of_error {e : BuildError}
    (h : Program.ofFile read o.maxDepth o.input = .error e) :
    exists report, (ofFile read o).result = .error report := by
  rcases bind_eq_error_iff.mp h with hinclude | ⟨texts, htexts, hsource⟩
  · rcases mapError_eq_error_iff.mp hinclude with ⟨e', he', _⟩
    exact ⟨e'.diagnostic.report, by rw [ofFile, he']⟩
  · rcases mapError_eq_error_iff.mp hsource with ⟨e', he', _⟩
    exact ⟨reportLine e' texts, result_ofFile (mapError_eq_ok_iff.mp htexts) he'⟩

theorem result_of_ok {p : Program} (h : Program.ofFile read o.maxDepth o.input = .ok p) :
    (ofFile read o).result = .ok (if o.cutNull then p.image.cutLeadingZeros else p.image) := by
  rcases bind_eq_ok_iff.mp h with ⟨texts, htexts, hsource⟩
  rcases bind_eq_ok_iff.mp (mapError_eq_ok_iff.mp hsource) with ⟨ls, hls, hp⟩
  rw [ofFile, mapError_eq_ok_iff.mp htexts]
  simp only [ofTexts, mapError_eq_ok_iff.mp hls, ofLines, mapError_eq_ok_iff.mp hp]

end Build

/-!
# Outcomes
-/

/-- The run has failed, has printed nothing, and has left the files as they were. -/
structure Outcome.Refuses (out : Outcome) (files : FileTree) : Prop where
  exitCode : out.exitCode = 1
  stdout : out.stdout = ""
  files : out.files = files

/-- The run has put `written` into the output file, and has shown it if that was asked for. -/
structure Outcome.Delivers (out : Outcome) (o : Options) (files : FileTree) (place : Place)
    (written : Image) : Prop where
  exitCode : out.exitCode = 0
  replaced : files.Replaces out.files place ⟨written⟩
  output : out.files.readBytes o.output = .ok ⟨written⟩
  printed : o.print = true -> exists hex, out.stdout = "Assembler output: " ++ hex ++ "\n" ∧
    HexText.decode? hex = some written.toList
  silent : o.print = false -> out.stdout = ""

namespace Outcome

theorem refuses_of_report {o : Options} {files : FileTree} {report : String}
    (h : (Build.ofFile files.readText o).result = .error report) :
    (ofOptions o files).Refuses files := by
  unfold ofOptions
  simp only [h]
  exact ⟨rfl, rfl, rfl⟩

theorem refuses_of_placeToWrite {o : Options} {files : FileTree} {image : Image} {e : FileError}
    (h : (Build.ofFile files.readText o).result = .ok image)
    (hplace : files.placeToWrite o.output = .error e) : (ofOptions o files).Refuses files := by
  have hwrite : files.write o.output ⟨image⟩ = .error e :=
    bind_eq_error_iff.mpr (Or.inl hplace)
  unfold ofOptions
  simp only [h, hwrite]
  exact ⟨rfl, rfl, rfl⟩

theorem delivers_of_placeToWrite {o : Options} {files : FileTree} {image : Image} {place : Place}
    (h : (Build.ofFile files.readText o).result = .ok image)
    (hplace : files.placeToWrite o.output = .ok place) :
    (ofOptions o files).Delivers o files place image := by
  rcases FileTree.canWrite_of_placeToWrite hplace with ⟨p, name, rfl, hcan⟩
  have hreplaces := FileTree.replaces_insert hcan.inside name ⟨image⟩
  have hwrite : files.write o.output ⟨image⟩ = .ok (files.insert (p ++ [name]) ⟨image⟩) :=
    bind_eq_ok_iff.mpr ⟨_, hplace, rfl⟩
  unfold ofOptions
  simp only [h, hwrite]
  refine ⟨rfl, hreplaces, hreplaces.readBytes hcan, ?_, ?_⟩
  · intro hprint
    refine ⟨HexText.encode image.toList, ?_, HexText.decode?_encode image.toList⟩
    rw [hprint]
    rfl
  · intro hprint
    rw [hprint]
    rfl

/--
A run whose source fails changes no file and prints nothing.  A run whose source is assembled
replaces the output file by the image, or by what remains of it without the zeros at its start,
and what it prints is read back as the bytes of this file.
-/
theorem ofOptions_all_or_nothing (o : Options) (files : FileTree) :
    (forall e, Program.ofFile files.readText o.maxDepth o.input = .error e ->
      (ofOptions o files).Refuses files) ∧
    (forall p e, Program.ofFile files.readText o.maxDepth o.input = .ok p ->
      files.placeToWrite o.output = .error e -> (ofOptions o files).Refuses files) ∧
    (forall p place, Program.ofFile files.readText o.maxDepth o.input = .ok p ->
      files.placeToWrite o.output = .ok place ->
        exists written, (ofOptions o files).Delivers o files place written ∧
          (o.cutNull = false -> written = p.image) ∧
          (o.cutNull = true -> p.image.CutsTo written)) := by
  refine ⟨?_, ?_, ?_⟩
  · intro e h
    rcases Build.exists_report_of_error h with ⟨report, hreport⟩
    exact refuses_of_report hreport
  · intro p e h hplace
    exact refuses_of_placeToWrite (Build.result_of_ok h) hplace
  · intro p place h hplace
    refine ⟨_, delivers_of_placeToWrite (Build.result_of_ok h) hplace, ?_, ?_⟩
    · intro hwhole
      rw [hwhole]
      rfl
    · intro hcut
      rw [hcut]
      exact p.image.cutsTo_cutLeadingZeros

/-- A source beside the output of an earlier run. -/
def besideOutput (source : String) : FileTree :=
  ⟨[(["main.asm"], source.toUTF8), (["out.bin"], ⟨#[7]⟩)], []⟩

def cutAndPrint : Options :=
  ⟨"main.asm", "out.bin", true, true, .error, 0⟩

theorem skippedLoad_delivered :
    (ofOptions cutAndPrint (besideOutput "jmp far")).Refuses (besideOutput "jmp far") ∧
      exists written, (ofOptions cutAndPrint (besideOutput ".org 2\nlda #1")).Delivers cutAndPrint
          (besideOutput ".org 2\nlda #1") ["out.bin"] written ∧
        Image.CutsTo #[0, 0, 0xA9, 1] written := by
  have hfails : Program.ofFile (besideOutput "jmp far").readText 0 "main.asm" =
      .error (.source (.statement ⟨.unresolvedLabel "FAR", 1, 2⟩)) := by
    decide +kernel
  have hloads : Program.ofFile (besideOutput ".org 2\nlda #1").readText 0 "main.asm" =
      .ok ⟨#[0, 0, 0xA9, 1], Symbols.empty⟩ := by
    decide +kernel
  have hplace : (besideOutput ".org 2\nlda #1").placeToWrite "out.bin" = .ok ["out.bin"] := by
    decide +kernel
  refine ⟨(ofOptions_all_or_nothing cutAndPrint _).left _ hfails, ?_⟩
  rcases (ofOptions_all_or_nothing cutAndPrint _).right.right _ _ hloads hplace with
    ⟨written, hdelivers, _, hcut⟩
  exact ⟨written, hdelivers, hcut rfl⟩

end Outcome

end Asm65
