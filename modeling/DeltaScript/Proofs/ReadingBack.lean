import DeltaScript.Proofs.Merging
import DeltaScript.Proofs.Storing

/-!
# Segments are read back as they were written

The segments of a layout share no address, so that their files have different names, and no file
takes the place of another one.

* `Segment.decode?_encode` — a file with a load address holds the segment that it was made from.
* `FileTree.Holds` — what a tree holds of segments that were written: every one of them, each in a
  file of its own, and nothing else that was not there before.
* `Layout.holds_of_allocate` — **the segments of a layout are read back as they were written.**
-/

namespace DeltaScript

open FileTree

/-- **The load address and the bytes are read as they were written.** -/
theorem Segment.decode?_encode (s : Segment) : decode? (s.encode true) = some s := by
  obtain ⟨address, bytes⟩ := s
  simp [encode, wordBytes, decode?, wordOf_wordBytes]

theorem run_readSegment {t : FileTree} {p : Path} {s : Segment}
    (h : t.read p = .ok (s.encode true)) :
    (readSegment p : StateM FileTree _).run t = (.ok s, t) := by
  have hread : (FileStore.read p : StateM FileTree _).run t = (.ok (s.encode true), t) := by
    show (t.read p, t) = _
    rw [h]
  rw [readSegment, run_bind, hread]
  simp only [s.decode?_encode]
  rfl

/-! ## Written segments -/

/-- What a tree holds of segments that were written to a path. -/
structure FileTree.Holds (t t' : FileTree) (segments : List Segment) (p : Path)
    (format : OutputFormat) (paths : List Path) : Prop where
  /-- Each path leads to a file of its own. -/
  nodup : (paths.map Path.parts).Nodup
  /-- All files are in the directory of the path, -/
  parent : ∀ q ∈ paths, q.parent? = p.parent?
  /-- and none of several is at the path itself. -/
  apart : 2 ≤ segments.length → ∀ q ∈ paths, q.parts ≠ p.parts
  withAddress : format = .prg → List.Forall₂
    (fun q s => (readSegment q : StateM FileTree _).run t' = (.ok s, t')) paths segments
  withoutAddress : format = .raw → List.Forall₂ (fun q s => t'.read q = .ok s.bytes) paths segments
  /-- Nothing changes but in the places of the files. -/
  elsewhere : ∃ places, List.Forall₂ t.Takes paths places
    ∧ ∀ names ∉ places, t'.node? names = t.node? names
  /-- No file is left waiting. -/
  waiting : t'.waiting = t.waiting

/-- **Segments with different addresses are read back as they were written.** -/
theorem FileTree.holds_of_writeSegments {t t' : FileTree} {segments : List Segment} {p : Path}
    {base : String} {format : OutputFormat} {paths : List Path} (hne : segments ≠ [])
    (haddresses : (segments.map Segment.address).Nodup) (hp : p.fileName? = some base)
    (h : (writeSegments segments p format : StateM FileTree _).run t = (.ok paths, t')) :
    t.Holds t' segments p format paths := by
  obtain ⟨rfl, hstores⟩ := stores_of_writeSegments hne haddresses h
  obtain ⟨hparents, hother⟩ := segmentPaths_spec hp segments
  have hcontent := forall₂_read hne hstores.read_eq
  refine ⟨?_, ?_, ?_, ?_, ?_, ?_, hstores.waiting⟩
  · have hnames := List.pairwise_map.mp (nodup_fileNames p haddresses)
    exact List.pairwise_map.mpr (hnames.imp fun hne heq => hne (Path.fileName?_congr heq))
  · exact hparents
  · intro htwo q hq heq
    exact hother htwo q hq (Path.fileName?_congr heq)
  · rintro rfl
    exact hcontent.imp fun q s hs => run_readSegment hs
  · rintro rfl
    exact hcontent
  · rw [← map_fst_filesOf hne]
    exact hstores.exists_places

namespace Layout

variable {blocks : Blocks} {mode : Mode} {l : Layout}

/-- The segments of a layout have different addresses, since none is empty and no two overlap. -/
theorem nodup_addresses (h : allocate blocks mode = .ok l) :
    (l.segments.map Segment.address).Nodup := by
  obtain ⟨-, hne, -, hapart⟩ := segments_apart h
  refine List.pairwise_map.mpr (hapart.imp_of_mem fun {s u} hs hu hsu heq => ?_)
  have hs := List.length_pos_iff.mpr (hne s hs)
  have hu := List.length_pos_iff.mpr (hne u hu)
  simp only [Segment.Apart, Segment.stop, heq] at hsu
  omega

/-- **The segments of a layout are read back as they were written.** -/
theorem holds_of_allocate (h : allocate blocks mode = .ok l) {p : Path} {base : String}
    (hp : p.fileName? = some base) {format : OutputFormat} {t t' : FileTree} {paths : List Path}
    (hwrite : (writeSegments l.segments p format : StateM FileTree _).run t = (.ok paths, t')) :
    t.Holds t' l.segments p format paths :=
  holds_of_writeSegments (segments_apart h).1 (nodup_addresses h) hp hwrite

end Layout

/-! ## Two files in a directory

One of the two replaces an older file, and a third file stays as it is.
-/

/-- A directory with an older file of the same name, and another file. -/
def FileTree.furnished : FileTree where
  nodes := [(["out"], .directory), (["out", "walk-1008.prg"], .file [1]),
    (["out", "walk.txt"], .file [2])]

def partedFiles : List (StagedFile × Path) :=
  [(⟨⟨"out"⟩, [0x08, 0x10, 0, 16, 1, 0]⟩, ⟨"out/walk-1008.prg"⟩),
    (⟨⟨"out"⟩, [0x00, 0x10, 192, 1, 2, 128]⟩, ⟨"out/walk-1000.prg"⟩)]

/-- The directory with both files. -/
def FileTree.refurnished : FileTree where
  nodes := [(["out", "walk-1000.prg"], .file [0x00, 0x10, 192, 1, 2, 128]),
    (["out", "walk-1008.prg"], .file [0x08, 0x10, 0, 16, 1, 0]), (["out"], .directory),
    (["out", "walk.txt"], .file [2])]

theorem run_writeSegments_parted :
    (writeSegments Layout.parted.segments ⟨"out/walk.prg"⟩ .prg : StateM FileTree _).run furnished
      = (.ok [⟨"out/walk-1008.prg"⟩, ⟨"out/walk-1000.prg"⟩], refurnished) := by
  have hfiles : filesOf Layout.parted.segments ⟨"out/walk.prg"⟩ .prg
      = partedFiles.map fun s => (s.2, s.1.bytes) := by rfl
  have hstage : (stageAll (filesOf Layout.parted.segments ⟨"out/walk.prg"⟩ .prg) :
      StateM FileTree _).run furnished
        = (.ok partedFiles, furnished.withWaiting partedFiles) := by
    rw [hfiles]
    rfl
  have hcommit : (commitAll [] partedFiles : StateM FileTree _).run
      (furnished.withWaiting partedFiles) = (.ok (), refurnished) := by rfl
  rw [run_writeSegments hstage hcommit]
  rfl

theorem Layout.holds_of_allocate_parted :
    allocate Blocks.parted (.chunked Bin.parted) = .ok parted
      ∧ (⟨"out/walk.prg"⟩ : Path).fileName? = some "walk.prg"
      ∧ furnished.Holds refurnished parted.segments ⟨"out/walk.prg"⟩ .prg
          [⟨"out/walk-1008.prg"⟩, ⟨"out/walk-1000.prg"⟩] := by
  have h : allocate Blocks.parted (.chunked Bin.parted) = .ok parted := by cbv
  have hp : (⟨"out/walk.prg"⟩ : Path).fileName? = some "walk.prg" := by rfl
  exact ⟨h, hp, holds_of_allocate h hp run_writeSegments_parted⟩

end DeltaScript
