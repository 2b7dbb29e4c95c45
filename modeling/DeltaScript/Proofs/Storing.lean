import DeltaScript.Proofs.Writing

/-!
# Files that are stored

A program may write several files one after the other, and what it leaves in the tree is told of all
of them at once.  **Where a file goes is told from the tree as it was in the beginning**, since
storing a file leaves the directories as they are.

* `FileTree.Stores` — files have been stored, and nothing else has changed.
* `FileTree.Stores.changed`, `FileTree.Stores.kept` — what changes are files that were to be stored,
  and **nothing is removed**.
* `FileTree.Stores.read_eq`, `FileTree.Stores.read_behind` — what was stored is read, and still is
  when other files have been stored elsewhere.
* `FileTree.stores_of_writeSegments`, `FileTree.stores_of_writeText` — **what is written is stored.**
-/

namespace DeltaScript

namespace FileTree

/-- Files have been stored: each of them is where its path leads, and nothing else has changed. -/
structure Stores (t t' : FileTree) (files : List (Path × List UInt8)) : Prop where
  directories : SameDirectories t t'
  /-- No file is left waiting. -/
  waiting : t'.waiting = t.waiting
  found : ∀ file ∈ files, ∃ names, t.Takes file.1 names ∧ t'.node? names = some (.file file.2)
  elsewhere : ∀ names, (∀ file ∈ files, ¬ t.Takes file.1 names) → t'.node? names = t.node? names

namespace Stores

variable {t t' t'' : FileTree} {files later : List (Path × List UInt8)}

theorem nil (t : FileTree) : t.Stores t [] :=
  ⟨.rfl t, rfl, by simp, fun _ _ => rfl⟩

/-- What was stored is read. -/
theorem read_eq (h : t.Stores t' files) : ∀ file ∈ files, t'.read file.1 = .ok file.2 := by
  intro file hfile
  obtain ⟨names, htakes, hnode⟩ := h.found file hfile
  exact htakes.read_eq h.directories hnode

/-- What has changed is where a file was to be stored. -/
theorem changed (h : t.Stores t' files) {names : List String}
    (hnames : t'.node? names ≠ t.node? names) : ∃ file ∈ files, t.Takes file.1 names := by
  by_contra hnone
  push Not at hnone
  exact hnames (h.elsewhere names hnone)

/-- **Nothing is removed.** -/
theorem kept (h : t.Stores t' files) {names : List String} (hnames : (t.node? names).isSome) :
    (t'.node? names).isSome := by
  by_cases hsame : t'.node? names = t.node? names
  · rwa [hsame]
  · obtain ⟨file, hfile, htakes⟩ := h.changed hsame
    obtain ⟨names', htakes', hnode⟩ := h.found file hfile
    obtain rfl := Except.ok.inj (htakes.1.symm.trans htakes'.1)
    rw [hnode]
    rfl

/-- The places of the files. -/
theorem exists_places (h : t.Stores t' files) : ∃ places,
    List.Forall₂ t.Takes (files.map Prod.fst) places
      ∧ ∀ names ∉ places, t'.node? names = t.node? names := by
  choose! place htakes _ using h.found
  refine ⟨files.map place, ?_, fun names hnames => h.elsewhere names fun file hfile hfileTakes => ?_⟩
  · rw [List.forall₂_map_left_iff, List.forall₂_map_right_iff, List.forall₂_same]
    exact htakes
  · obtain rfl := Except.ok.inj ((htakes file hfile).1.symm.trans hfileTakes.1)
    exact hnames (List.mem_map_of_mem hfile)

/-- **What was stored is still read when other files have been stored elsewhere.** -/
theorem read_behind (h : t.Stores t' files) (h' : t'.Stores t'' later)
    (hapart : ∀ file ∈ files, ∀ other ∈ later, ∀ names, t.Takes file.1 names →
      ¬ t.Takes other.1 names) : ∀ file ∈ files, t''.read file.1 = .ok file.2 := by
  intro file hfile
  obtain ⟨names, htakes, hnode⟩ := h.found file hfile
  refine htakes.read_eq (h.directories.trans h'.directories) ?_
  rw [h'.elsewhere names, hnode]
  intro other hother htakes'
  exact hapart file hfile other hother names htakes (htakes'.congr h.directories.symm)

end Stores

variable {t t' : FileTree}

/-- Files that are placed, each in a place of its own, are stored. -/
theorem Placed.stores {items : List (StagedFile × Path)} {places : List (List String)}
    (h : Placed (t.withWaiting items) t' items places) (hplaces : places.Nodup) :
    t.Stores t' (items.map fun item => (item.2, item.1.bytes)) := by
  have hsame := t.sameDirectories_withWaiting items
  obtain ⟨hlength, htakes⟩ := List.forall₂_iff_get.mp h.takes
  have hfiles := (List.forall₂_iff_get.mp (h.files hplaces)).2
  refine ⟨hsame.symm.trans h.directories, ?_, ?_, ?_⟩
  · rw [h.waiting, waiting_diff_withWaiting]
  · rw [List.forall_mem_map]
    intro item hitem
    obtain ⟨k, hk, rfl⟩ := List.mem_iff_getElem.mp hitem
    have hk' : k < places.length := hlength ▸ hk
    exact ⟨_, (htakes k hk hk').congr hsame, hfiles k hk hk'⟩
  · intro names hnames
    refine h.elsewhere names fun hmem => ?_
    obtain ⟨k, hk, rfl⟩ := List.mem_iff_getElem.mp hmem
    have hk' : k < items.length := hlength ▸ hk
    exact hnames _ (List.mem_map_of_mem (List.getElem_mem hk')) ((htakes k hk' hk).congr hsame)

/-! ## Segments -/

/-- **Segments with different addresses are stored**, each at a path of its own. -/
theorem stores_of_writeSegments {segments : List Segment} {p : Path} {format : OutputFormat}
    {paths : List Path} (hne : segments ≠ []) (haddresses : (segments.map Segment.address).Nodup)
    (h : (writeSegments segments p format : StateM FileTree _).run t = (.ok paths, t')) :
    paths = segmentPaths p segments ∧ t.Stores t' (filesOf segments p format) := by
  have houtcome := outcome_writeSegments segments p format t
  rw [h] at houtcome
  cases houtcome with
  | @done staged places _ htargets hbytes hplaced hwaiting =>
      have hplaces : places.Nodup := by
        refine hplaced.nodup_places ?_
        rw [htargets, map_fst_filesOf hne]
        exact nodup_fileNames p haddresses
      have hfst : (staged.map fun item => (item.2, item.1.bytes)).map Prod.fst
          = (filesOf segments p format).map Prod.fst := by rw [List.map_map, ← htargets]; rfl
      have hsnd : (staged.map fun item => (item.2, item.1.bytes)).map Prod.snd
          = (filesOf segments p format).map Prod.snd := by rw [List.map_map, ← hbytes]; rfl
      have hfiles := (List.zip_of_prod hfst hsnd).trans (List.zip_of_prod rfl rfl).symm
      exact ⟨rfl, hfiles ▸ hplaced.stores hplaces⟩

/-- Every segment that is stored is read, with the load address or without. -/
theorem forall₂_read {segments : List Segment} {p : Path} {format : OutputFormat}
    (hne : segments ≠ [])
    (h : ∀ file ∈ filesOf segments p format, t'.read file.1 = .ok file.2) :
    List.Forall₂ (fun q s => t'.read q = .ok (s.encode format.hasAddress))
      (segmentPaths p segments) segments := by
  refine List.forall₂_iff_zip.mpr ⟨length_segmentPaths hne, fun {q s} hmem => ?_⟩
  refine h (q, s.encode format.hasAddress) ?_
  rw [filesOf, List.zip_map_right]
  exact List.mem_map.mpr ⟨(q, s), hmem, rfl⟩

/-! ## Texts -/

/-- **A text is stored.** -/
theorem stores_of_writeText {text : String} {p : Path}
    (h : (writeText text p : StateM FileTree _).run t = (.ok (), t')) :
    t.Stores t' [(p, text.toUTF8.data.toList)] := by
  rw [writeText, run_bind, run_stage] at h
  cases hstage : t.stage p.directory text.toUTF8.data.toList with
  | error e =>
      rw [hstage] at h
      cases h
  | ok first =>
      obtain ⟨staged, t₁⟩ := first
      obtain ⟨hbytes, rfl⟩ := stage_eq_ok hstage
      rw [hstage] at h
      change (((FileStore.commit staged p : StateM FileTree _) >>= _).run
        (t.withWaiting [(staged, p)])) = _ at h
      rw [run_bind, run_commit] at h
      cases hcommit : (t.withWaiting [(staged, p)]).commit staged p with
      | error e =>
          rw [hcommit] at h
          cases h
      | ok t₂ =>
          rw [hcommit] at h
          cases h
          obtain ⟨names, hplaced⟩ := (placed_nil t₂).cons hcommit
          rw [← hbytes]
          exact hplaced.stores (List.nodup_singleton names)

end FileTree

end DeltaScript
