import Mathlib
import DeltaScript.Proofs.Flags
import DeltaScript.Proofs.ReadingBack
import DeltaScript.Proofs.Verdict

/-!
# What a command line leaves behind

A run reads one file and writes some others, and what it tells about them can be relied on: **where
it tells of a failure, no file was touched, and where it ends well, the files hold what was
compiled.**  A failure to write is told of in words of its own, since files may be left behind then.

* `Arguments.Selects` — the segments that are written for a layout; `selects_of_segmentsToWrite`.
* `Outcome.Reports` — a failure is reported; `not_reports`.
* `Written`, `written_writeBuild` — what writing a build comes to.
* `Built`, `built_buildOnce` — what building comes to: **nothing is written unless everything was
  compiled.**
* `Arguments.Delivers` — what is expected of the files after a run that ends well.
* `Careful`, `careful_run` — **every run is careful with the files.**
-/

namespace DeltaScript.CommandLine

open FileTree

variable {a : Arguments} {j : Job} {t t' : FileTree} {source : String} {build : Build}
  {segments : List Segment}

/-! ## What is compiled -/

/-- The segments that are written: those of the layout, or the one that they are merged into. -/
def Arguments.Selects (a : Arguments) (l : Layout) (segments : List Segment) : Prop :=
  (a.merge = false ∧ segments = l.segments)
    ∨ (a.merge = true ∧ ∃ image merged, Image.ofLayout l a.fill = .ok image
      ∧ image.segment? = some merged ∧ segments = [merged])

/-- The layout of a build is that of some blocks. -/
theorem exists_allocate_of_compile {objects : Option ℕ} {settings : Settings} {mode : Mode}
    (h : DeltaScript.compile source objects settings mode = .ok build) :
    ∃ blocks, Layout.allocate blocks mode = .ok build.layout := by
  obtain ⟨_, session, -, hbuild⟩ :=
    Request.compile_eq_ok_iff.mp (show Request.compile ⟨source, objects, settings, mode⟩ = _ from h)
  obtain ⟨scripts, layout, -, hlayout, rfl⟩ := Reel.build_eq_ok_iff.mp hbuild
  exact ⟨_, hlayout⟩

/-- **What is written for a layout**: there is a segment, and no two start at one address. -/
theorem selects_of_segmentsToWrite {blocks : Blocks} {mode : Mode} {l : Layout}
    (hallocate : Layout.allocate blocks mode = .ok l) (h : segmentsToWrite a l = .ok segments) :
    a.Selects l segments ∧ segments ≠ [] ∧ (segments.map Segment.address).Nodup := by
  obtain ⟨hsegments, hne, hstop, hapart⟩ := Layout.segments_apart hallocate
  rw [segmentsToWrite] at h
  cases hmerge : a.merge with
  | false =>
      simp only [hmerge, Bool.false_eq_true, if_false, Except.ok.injEq] at h
      subst h
      exact ⟨Or.inl ⟨hmerge, rfl⟩, hsegments, Layout.nodup_addresses hallocate⟩
  | true =>
      rw [hmerge, if_pos rfl] at h
      obtain ⟨image, himage, rfl⟩ := map_eq_ok_iff.mp h
      obtain ⟨m, hm, hrecords, -⟩ :=
        (Image.records_empty a.fill).injectAll hne hstop hapart (by simp)
      obtain rfl := Except.ok.inj (himage.symm.trans hm)
      obtain ⟨merged, hmerged, -⟩ := hrecords.exists_merged hsegments hne
      rw [hmerged]
      exact ⟨Or.inr ⟨hmerge, image, merged, himage, hmerged, rfl⟩, by simp, by simp⟩

theorem Job.compile_eq_ok_iff : j.compile source = .ok (build, segments) ↔
    DeltaScript.compile source j.arguments.objects j.settings j.arguments.mode = .ok build
      ∧ segmentsToWrite j.arguments build.layout = .ok segments := by
  rw [Job.compile, bind_eq_ok_iff]
  constructor
  · rintro ⟨build', hbuild, h⟩
    obtain ⟨segments', hsegments, h⟩ := bind_eq_ok_iff.mp h
    obtain ⟨rfl, rfl⟩ := Prod.mk.inj (Except.ok.inj h)
    exact ⟨hbuild, hsegments⟩
  · rintro ⟨hbuild, hsegments⟩
    exact ⟨build, hbuild, bind_eq_ok_iff.mpr ⟨segments, hsegments, rfl⟩⟩

/-! ## What is said -/

/-- A failure of the recording, of the settings or of the memory ranges is reported. -/
def Outcome.Reports (o : Outcome) : Prop :=
  ∃ e source file, o.transcript.err = failureText e source file

/-- What is said when a file cannot be written. -/
def writeErrorText (p : Path) (e : FileError) : String :=
  s!"Error: Cannot write {p.text}: {e.message}\n"

theorem head?_writeErrorText (p : Path) (e : FileError) :
    (writeErrorText p e).toList.head? = some 'E' := by
  unfold writeErrorText
  simp [String.toList_append, toString]

theorem head?_layOut (d : Diagnostic) (file : String) (place : Option (Span × Location)) :
    (d.layOut file place).toList.head? = some 'e' := by
  unfold Diagnostic.layOut
  simp [String.toList_append, toString]

theorem head?_failureText (e : Failure) (source file : String) :
    (failureText e source file).toList.head? ≠ some 'E' := by
  rw [failureText]
  cases hreport : e.diagnostic.report? source file with
  | none => simp
  | some text =>
      rw [Diagnostic.report?] at hreport
      split at hreport
      · rw [← Option.some.inj hreport, Option.getD_some, head?_layOut]
        simp
      · obtain ⟨place, -, rfl⟩ := Option.map_eq_some_iff.mp hreport
        rw [Option.getD_some, head?_layOut]
        simp

/-- **A file that cannot be written is told of in other words than a failure.** -/
theorem not_reports {o : Outcome} {p : Path} {e : FileError}
    (h : o.transcript.err = writeErrorText p e) : ¬ o.Reports := by
  rintro ⟨failure, source, file, hfailure⟩
  refine head?_failureText failure source file ?_
  rw [← hfailure, h]
  exact head?_writeErrorText p e

/-! ## Building -/

/-- The listing, and where it goes if it is asked for. -/
def Arguments.listing (a : Arguments) (l : Layout) : List (Path × List UInt8) :=
  a.symbols.toList.map fun p => (p, l.symbols.toUTF8.data.toList)

/-- What writing a build comes to. -/
inductive Written (j : Job) (l : Layout) (segments : List Segment) (t : FileTree) :
    Outcome × FileTree → Prop
  /-- A file cannot be written. -/
  | failed {o : Outcome} {t' : FileTree} {p : Path} {e : FileError} (hending : o.ending = .exit 1)
      (herr : o.transcript.err = writeErrorText p e) : Written j l segments t (o, t')
  /-- First the segments are stored, and then the listing. -/
  | done {o : Outcome} {t₁ t' : FileTree} (hending : o.ending = .exit 0)
      (hsegments : t.Stores t₁ (filesOf segments j.arguments.output j.format))
      (hlisting : t₁.Stores t' (j.arguments.listing l)) : Written j l segments t (o, t')

theorem err_fail {transcript : Transcript} (herr : transcript.err = "") (code : ℕ) (text : String) :
    (Outcome.fail transcript code text).transcript.err = text := by
  simp [Outcome.fail, Outcome.exit, herr]

/-- **A build is written completely, or it is told that it is not.** -/
theorem written_writeBuild {transcript : Transcript} (herr : transcript.err = "")
    (hne : segments ≠ []) (haddresses : (segments.map Segment.address).Nodup) :
    Written j build.layout segments t
      ((writeBuild j transcript build segments : StateM FileTree _).run t) := by
  rw [writeBuild, run_bind]
  rcases hwrite : (writeSegments segments j.arguments.output j.format : StateM FileTree _).run t
    with ⟨result, t₁⟩
  cases result with
  | error e => exact .failed rfl (err_fail herr 1 _)
  | ok paths =>
      obtain ⟨-, hsegments⟩ := stores_of_writeSegments hne haddresses hwrite
      cases hsymbols : j.arguments.symbols with
      | none =>
          refine .done rfl hsegments ?_
          rw [Arguments.listing, hsymbols]
          exact .nil t₁
      | some listing =>
          show Written _ _ _ _
            (((writeText build.layout.symbols listing : StateM FileTree _) >>= _).run t₁)
          rw [run_bind]
          rcases htext : (writeText build.layout.symbols listing : StateM FileTree _).run t₁
            with ⟨result, t₂⟩
          cases result with
          | error e => exact .failed rfl (err_fail herr 1 _)
          | ok _ =>
              refine .done rfl hsegments ?_
              rw [Arguments.listing, hsymbols]
              exact stores_of_writeText htext

/-- What building comes to. -/
inductive Built (j : Job) (t : FileTree) : Outcome × FileTree → Prop
  /-- The recording cannot be read. -/
  | unread {o : Outcome} (hending : o.ending = .exit 3) : Built j t (o, t)
  /-- The recording is not compiled. -/
  | reported {o : Outcome} (hending : o.ending = .exit 1) (hreports : o.Reports) : Built j t (o, t)
  /-- What is written was compiled from the recording. -/
  | written {result : Outcome × FileTree} {bytes : List UInt8} {source : String} {build : Build}
      {segments : List Segment} (hread : t.read j.arguments.recording = .ok bytes)
      (hsource : decodeText bytes = some source)
      (hcompile : j.compile source = .ok (build, segments))
      (h : Written j build.layout segments t result) : Built j t result

/-- **Nothing is written unless everything was compiled.** -/
theorem built_buildOnce {transcript : Transcript} (herr : transcript.err = "") :
    Built j t ((buildOnce j transcript : StateM FileTree _).run t) := by
  have hrun : (FileStore.read j.arguments.recording : StateM FileTree _).run t
      = (t.read j.arguments.recording, t) := rfl
  rw [buildOnce, run_bind, hrun]
  cases hread : t.read j.arguments.recording with
  | error e => exact .unread rfl
  | ok bytes =>
      cases hsource : decodeText bytes with
      | none =>
          simp only [hsource]
          exact .unread rfl
      | some source =>
          simp only [hsource]
          cases hcompile : j.compile source with
          | error e => exact .reported rfl ⟨e, source, _, err_fail herr 1 _⟩
          | ok result =>
              obtain ⟨build, segments⟩ := result
              obtain ⟨hbuild, hwritten⟩ := Job.compile_eq_ok_iff.mp hcompile
              obtain ⟨blocks, hallocate⟩ := exists_allocate_of_compile hbuild
              obtain ⟨-, hne, haddresses⟩ := selects_of_segmentsToWrite hallocate hwritten
              exact .written hread hsource hcompile (written_writeBuild herr hne haddresses)

/-! ## Running -/

/-- What is expected of the files after a run that ends well. -/
structure Arguments.Delivers (a : Arguments) (t t' : FileTree) (source : String)
    (format : OutputFormat) (build : Build) (segments : List Segment) : Prop where
  /-- The text of the recording was compiled as the flags ask for. -/
  recording : ∃ bytes, t.read a.recording = .ok bytes ∧ decodeText bytes = some source
  compiled : DeltaScript.compile source a.objects a.configured a.mode = .ok build
  format_eq : a.format? = some format
  selects : a.Selects build.layout segments
  /-- Whatever has changed is a segment file or the listing, -/
  changed : ∀ names, t'.node? names ≠ t.node? names →
    ∃ p ∈ segmentPaths a.output segments ++ a.symbols.toList, t.Takes p names
  /-- nothing is removed, and nothing is left waiting. -/
  kept : ∀ names, (t.node? names).isSome → (t'.node? names).isSome
  waiting : t'.waiting = t.waiting
  /-- Each segment file holds its segment, unless the listing has taken its place. -/
  files : (∀ listing ∈ a.symbols, ∀ p ∈ segmentPaths a.output segments, ∀ names,
      t.Takes p names → ¬ t.Takes listing names) →
    List.Forall₂ (fun p s => t'.read p = .ok (s.encode format.hasAddress))
      (segmentPaths a.output segments) segments
  listing : ∀ listing ∈ a.symbols,
    t'.read listing = .ok build.layout.symbols.toUTF8.data.toList

/-- **What is stored one after the other is delivered.** -/
theorem Arguments.delivers_of_stores {t₁ : FileTree} {bytes : List UInt8} {format : OutputFormat}
    (hread : t.read a.recording = .ok bytes) (hsource : decodeText bytes = some source)
    (hcompiled : DeltaScript.compile source a.objects a.configured a.mode = .ok build)
    (hformat : a.format? = some format) (hselects : a.Selects build.layout segments)
    (hne : segments ≠ []) (hsegments : t.Stores t₁ (filesOf segments a.output format))
    (hlisting : t₁.Stores t' (a.listing build.layout)) :
    a.Delivers t t' source format build segments := by
  have hpaths : ∀ file ∈ filesOf segments a.output format,
      file.1 ∈ segmentPaths a.output segments := fun file hfile =>
    map_fst_filesOf hne ▸ List.mem_map_of_mem hfile
  have hsymbols : ∀ file ∈ a.listing build.layout, file.1 ∈ a.symbols := by
    intro file hfile
    obtain ⟨p, hp, rfl⟩ := List.mem_map.mp hfile
    exact Option.mem_toList.mp hp
  constructor
  case recording => exact ⟨bytes, hread, hsource⟩
  case compiled => exact hcompiled
  case format_eq => exact hformat
  case selects => exact hselects
  case changed =>
    intro names hnames
    by_cases hsame : t₁.node? names = t.node? names
    · rw [← hsame] at hnames
      obtain ⟨file, hfile, htakes⟩ := hlisting.changed hnames
      refine ⟨file.1, List.mem_append_right _ (Option.mem_toList.mpr (hsymbols file hfile)), ?_⟩
      exact htakes.congr hsegments.directories.symm
    · obtain ⟨file, hfile, htakes⟩ := hsegments.changed hsame
      exact ⟨file.1, List.mem_append_left _ (hpaths file hfile), htakes⟩
  case kept => exact fun names hnames => hlisting.kept (hsegments.kept hnames)
  case waiting => exact hlisting.waiting.trans hsegments.waiting
  case files =>
    intro hapart
    refine forall₂_read hne (hsegments.read_behind hlisting ?_)
    intro file hfile other hother names
    exact hapart other.1 (hsymbols other hother) file.1 (hpaths file hfile) names
  case listing =>
    intro listing hmem
    exact hlisting.read_eq (listing, _)
      (List.mem_map.mpr ⟨listing, Option.mem_toList.mpr hmem, rfl⟩)

/-- What a run may do to the files. -/
structure Careful (words : List String) (t : FileTree) (result : Outcome × FileTree) : Prop where
  /-- A command line that is not understood, a recording that cannot be read, or a failure that is
  reported: nothing has changed. -/
  refused : ∀ code, result.1.ending = .exit code →
    code = 2 ∨ code = 3 ∨ (code = 1 ∧ result.1.Reports) → result.2 = t
  /-- A run that ends well has delivered what was asked for, unless that was the version. -/
  delivered : result.1.ending = .exit 0 → parse words ≠ .error .version →
    ∃ a source format build segments, parse words = .ok a
      ∧ a.Delivers t result.2 source format build segments

/-- A run that ends otherwise than well or with a failure may do anything. -/
theorem careful_of_ending {words : List String} {result : Outcome × FileTree}
    (h : result.1.ending = .exit 6 ∨ result.1.ending = .watching) : Careful words t result := by
  constructor
  · intro code hcode
    rcases h with h | h
    · obtain rfl := Ending.exit.inj (h.symm.trans hcode)
      omega
    · cases h.symm.trans hcode
  · intro hending
    rcases h with h | h
    · cases h.symm.trans hending
    · cases h.symm.trans hending

/-- **A build is careful with the files**, whatever it comes to. -/
theorem careful_of_built {words : List String} {result : Outcome × FileTree}
    (hjob : job words = .ok j) (h : Built j t result) : Careful words t result := by
  obtain ⟨hparse, hformat, hsettings⟩ := job_eq_ok_iff.mp hjob
  obtain ⟨-, -, hconfigured⟩ := Arguments.settings_eq_ok_iff.mp hsettings
  cases h with
  | unread hending =>
      refine ⟨fun _ _ _ => rfl, fun hzero => ?_⟩
      cases hending.symm.trans hzero
  | reported hending _ =>
      refine ⟨fun _ _ _ => rfl, fun hzero => ?_⟩
      cases hending.symm.trans hzero
  | @written _ bytes source build segments hread hsource hcompile h =>
      obtain ⟨hbuild, hwritten⟩ := Job.compile_eq_ok_iff.mp hcompile
      obtain ⟨blocks, hallocate⟩ := exists_allocate_of_compile hbuild
      obtain ⟨hselects, hne, -⟩ := selects_of_segmentsToWrite hallocate hwritten
      cases h with
      | failed hending herr =>
          refine ⟨fun code hcode hrefused => ?_, fun hzero => ?_⟩
          · obtain rfl := Ending.exit.inj (hending.symm.trans hcode)
            obtain ⟨-, hreports⟩ := (hrefused.resolve_left (by decide)).resolve_left (by decide)
            exact absurd hreports (not_reports herr)
          · cases hending.symm.trans hzero
      | done hending hsegments hlisting =>
          refine ⟨fun code hcode hrefused => ?_, fun _ _ => ?_⟩
          · obtain rfl := Ending.exit.inj (hending.symm.trans hcode)
            omega
          · rw [hconfigured] at hbuild
            exact ⟨_, source, _, build, segments, hparse, Arguments.delivers_of_stores hread hsource
              hbuild hformat hselects hne hsegments hlisting⟩

theorem ending_startWatching (j : Job) (transcript : Transcript) (t : FileTree) :
    ((startWatching j transcript : StateM FileTree _).run t).1.ending = .exit 6
      ∨ ((startWatching j transcript : StateM FileTree _).run t).1.ending = .watching := by
  have hrun : (FileStore.resolve j.arguments.recording : StateM FileTree _).run t
      = ((t.find j.arguments.recording).map fun _ => (), t) := rfl
  rw [startWatching, run_bind, hrun]
  cases t.find j.arguments.recording with
  | error e => exact Or.inl rfl
  | ok place => exact Or.inr rfl

/-- **Every run is careful with the files.** -/
theorem careful_run (words : List String) (t : FileTree) :
    Careful words t ((run words : StateM FileTree _).run t) := by
  rw [run]
  cases hjob : job words with
  | error o =>
      refine ⟨fun _ _ _ => rfl, fun hending hversion => ?_⟩
      rcases ending_of_job hjob with h | h
      · cases h.symm.trans hending
      · exact absurd h hversion
  | ok j =>
      have hbuilt : Built j t
          ((buildOnce j { out := j.verbosely (preamble j) } : StateM FileTree _).run t) :=
        built_buildOnce rfl
      show Careful words t ((runJob j : StateM FileTree _).run t)
      rw [runJob, run_bind]
      cases hwatch : j.arguments.watch with
      | true => exact careful_of_ending (ending_startWatching ..)
      | false => exact careful_of_built hjob hbuilt

/-- A directory with a recording of two frames. -/
def recorded : FileTree where
  nodes := [(["walk.txt"], .file "0 9 9 0\n0 10 9 0\n".toUTF8.data.toList)]

/-- A segment is written with its load address in front. -/
example : ((run ["walk.txt", "-o", "walk.prg", "--base", "$1000"] : StateM FileTree _).run
    recorded).2.read ⟨"walk.prg"⟩
      = .ok [0, 16, 8, 16, 14, 16, 15, 16, 2, 0, 192, 9, 9, 0, 128, 1, 0, 0] := by
  decide +kernel

end DeltaScript.CommandLine
