import DeltaScript.Proofs.Tree

/-!
# Writing segments to a tree

Writing has two stages, and each of them either goes through or is taken back.  Files that are
staged only wait, so that giving them up restores the tree.  **Files that are committed may have
replaced older ones, and removing them does not bring those back.**

* `Staging`, `staging_stageAll` — files are staged all together or not at all.
* `Committing`, `committing_commitAll` — files are committed one after the other, and removed if one
  of them cannot be.
* `Outcome`, `outcome_writeSegments` — what both stages come to.
* `rolledBack_of_writeSegments` — **what a write that fails leaves behind**, and when it leaves the
  tree as it was.
* `older_file_lost` — a write that fails and takes an older file with it.
-/

namespace DeltaScript

open FileTree

variable {t t' : FileTree} {segments : List Segment} {p : Path} {format : OutputFormat}

/-- Programs on a tree run one after the other. -/
theorem run_bind {α β : Type} (x : StateM FileTree α) (f : α → StateM FileTree β) (t : FileTree) :
    (x >>= f).run t = (f (x.run t).1).run (x.run t).2 := rfl

/-! ## Staging -/

/-- The tree with files that wait in front of those that waited before, the last one first. -/
def FileTree.withWaiting (t : FileTree) (staged : List (StagedFile × Path)) : FileTree :=
  { t with waiting := (staged.map Prod.fst).reverse ++ t.waiting }

theorem FileTree.withWaiting_cons (t : FileTree) (staged : StagedFile) (target : Path)
    (later : List (StagedFile × Path)) :
    t.withWaiting ((staged, target) :: later)
      = ({ t with waiting := staged :: t.waiting } : FileTree).withWaiting later := by
  simp [withWaiting]

theorem FileTree.stage_eq_ok {dir : Path} {bytes : List UInt8} {staged : StagedFile}
    (h : t.stage dir bytes = .ok (staged, t')) :
    staged.bytes = bytes ∧ t' = { t with waiting := staged :: t.waiting } := by
  obtain ⟨place, -, h⟩ := bind_eq_ok_iff.mp h
  split_ifs at h
  · cases h
  · cases h
    exact ⟨rfl, rfl⟩

/-- What staging comes to. -/
inductive Staging (t : FileTree) (items : List (Path × List UInt8)) :
    Except FileError (List (StagedFile × Path)) × FileTree → Prop
  /-- Nothing is staged. -/
  | refused (e : FileError) : Staging t items (.error e, t)
  /-- Every file waits to be committed. -/
  | done (staged : List (StagedFile × Path)) (htargets : staged.map Prod.snd = items.map Prod.fst)
      (hbytes : staged.map (fun s => s.1.bytes) = items.map Prod.snd) :
      Staging t items (.ok staged, t.withWaiting staged)

theorem run_stage (dir : Path) (bytes : List UInt8) (t : FileTree) :
    (FileStore.stage dir bytes : StateM FileTree _).run t = match t.stage dir bytes with
      | .ok (staged, t) => (.ok staged, t)
      | .error e => (.error e, t) := rfl

/-- **Files are staged all together or not at all.** -/
theorem staging_stageAll (items : List (Path × List UInt8)) (t : FileTree) :
    Staging t items ((stageAll items : StateM FileTree _).run t) := by
  induction items generalizing t with
  | nil => exact .done [] rfl rfl
  | cons item rest ih =>
      obtain ⟨target, bytes⟩ := item
      rw [stageAll, run_bind, run_stage]
      cases hstage : t.stage target.directory bytes with
      | error e => exact .refused e
      | ok first =>
          obtain ⟨staged, t₁⟩ := first
          obtain ⟨rfl, rfl⟩ := stage_eq_ok hstage
          have hrest := ih { t with waiting := staged :: t.waiting }
          show Staging _ _ (((stageAll rest : StateM FileTree _) >>= _).run _)
          rw [run_bind]
          generalize (stageAll rest : StateM FileTree _).run _ = result at hrest
          cases hrest with
          | refused e =>
              -- what was staged is given up again
              have hdiscard :
                  ({ t with waiting := staged :: t.waiting } : FileTree).discard staged = t := by
                simp [FileTree.discard]
              show Staging _ _ (.error e, FileTree.discard _ staged)
              rw [hdiscard]
              exact .refused e
          | done later htargets hbytes =>
              show Staging _ _ (.ok ((staged, target) :: later), withWaiting _ later)
              rw [← withWaiting_cons]
              exact .done _ (by simp [htargets]) (by simp [hbytes])

/-! ## Committing -/

theorem run_commit (staged : StagedFile) (p : Path) (t : FileTree) :
    (FileStore.commit staged p : StateM FileTree _).run t = match t.commit staged p with
      | .ok t => (.ok (), t)
      | .error e => (.error e, t) := rfl

theorem run_discardAll (items : List (StagedFile × Path)) (t : FileTree) :
    (discardAll items : StateM FileTree _).run t
      = ((), { t with waiting := t.waiting.diff (items.map Prod.fst) }) := by
  induction items generalizing t with
  | nil => rfl
  | cons item items ih =>
      obtain ⟨staged, target⟩ := item
      rw [discardAll, run_bind]
      show (discardAll items : StateM FileTree _).run (t.discard staged) = _
      rw [ih, List.map_cons, List.diff_cons]
      rfl

theorem run_removeAll (paths : List Path) (t : FileTree) :
    (removeAll paths : StateM FileTree _).run t = ((), paths.foldl removed t) := by
  induction paths generalizing t with
  | nil => rfl
  | cons p paths ih =>
      rw [removeAll, run_bind, ih, List.foldl_cons]
      congr 2
      show (update (fun t => t.remove p) t).2 = removed t p
      rw [update, removed]
      cases t.remove p <;> rfl

/-- What commits come to, behind those that were done before. -/
inductive Committing (t : FileTree) (done : List Path) (items : List (StagedFile × Path)) :
    Except FileError Unit × FileTree → Prop
  | done {t₁ : FileTree} (h : t.commits items = .ok t₁) : Committing t done items (.ok (), t₁)
  /-- A commit fails.  The later files are given up, and the earlier ones are removed. -/
  | failed {before later : List (StagedFile × Path)} {staged : StagedFile} {target : Path}
      {t₁ : FileTree} {e : FileError} (hitems : items = before ++ (staged, target) :: later)
      (h : t.commits before = .ok t₁) (he : t₁.commit staged target = .error e) :
      Committing t done items (.error e, (done ++ before.map Prod.snd).foldl removed
        { t₁ with waiting := t₁.waiting.diff (staged :: later.map Prod.fst) })

/-- **Every file is committed, or those that are committed are removed.** -/
theorem committing_commitAll (done : List Path) (items : List (StagedFile × Path)) (t : FileTree) :
    Committing t done items ((commitAll done items : StateM FileTree _).run t) := by
  induction items generalizing done t with
  | nil => exact .done rfl
  | cons item rest ih =>
      obtain ⟨staged, target⟩ := item
      rw [commitAll, run_bind, run_commit]
      cases hcommit : t.commit staged target with
      | error e =>
          show Committing _ _ _
            (((discardAll ((staged, target) :: rest) : StateM FileTree _) >>= _).run t)
          rw [run_bind, run_bind, run_discardAll, run_removeAll]
          have hfailed : Committing t done ([] ++ (staged, target) :: rest) _ :=
            .failed rfl rfl hcommit
          rw [List.map_nil, List.append_nil] at hfailed
          exact hfailed
      | ok t₁ =>
          have hrest := ih (done ++ [target]) t₁
          show Committing _ _ _ ((commitAll (done ++ [target]) rest : StateM FileTree _).run t₁)
          generalize (commitAll (done ++ [target]) rest : StateM FileTree _).run t₁ = result
            at hrest
          cases hrest with
          | done h => exact .done (bind_eq_ok_iff.mpr ⟨t₁, hcommit, h⟩)
          | @failed before later last aim t₂ _ hitems h he =>
              have hbefore : t.commits ((staged, target) :: before) = .ok t₂ :=
                bind_eq_ok_iff.mpr ⟨t₁, hcommit, h⟩
              have hitems : (staged, target) :: rest
                  = ((staged, target) :: before) ++ (last, aim) :: later := by
                rw [hitems, List.cons_append]
              have hfailed : Committing t done ((staged, target) :: rest) _ :=
                .failed hitems hbefore he
              rwa [List.map_cons, List.append_cons] at hfailed

/-! ## Both stages -/

theorem append_diff_self (staged waiting : List StagedFile) :
    (staged ++ waiting).diff staged = waiting := by
  induction staged with
  | nil => simp
  | cons first rest ih => simpa using ih

/-- **No file waits once all that were staged are committed or given up.** -/
theorem FileTree.waiting_diff_withWaiting (t : FileTree) (staged : List (StagedFile × Path)) :
    (t.withWaiting staged).waiting.diff (staged.map Prod.fst) = t.waiting := by
  rw [← (List.reverse_perm (staged.map Prod.fst)).diff_left]
  exact append_diff_self _ _

theorem FileTree.sameDirectories_withWaiting (t : FileTree) (staged : List (StagedFile × Path)) :
    SameDirectories (t.withWaiting staged) t := fun _ => Iff.rfl

/-- The files to write: each with its path and its content. -/
def filesOf (segments : List Segment) (p : Path) (format : OutputFormat) :
    List (Path × List UInt8) :=
  (segmentPaths p segments).zip (segments.map (Segment.encode format.hasAddress))

theorem length_segmentPaths (h : segments ≠ []) :
    (segmentPaths p segments).length = segments.length := by
  have hpos := List.length_pos_iff.mpr h
  rw [segmentPaths]
  split_ifs with hone
  · rw [List.length_singleton]
    omega
  · exact List.length_map _

theorem map_fst_filesOf (h : segments ≠ []) :
    (filesOf segments p format).map Prod.fst = segmentPaths p segments := by
  rw [filesOf, List.map_fst_zip]
  simp [length_segmentPaths h]

theorem prefix_map_fst_filesOf (segments : List Segment) (p : Path) (format : OutputFormat) :
    (filesOf segments p format).map Prod.fst <+: segmentPaths p segments := by
  rcases eq_or_ne segments [] with rfl | h
  · simp [filesOf]
  · rw [map_fst_filesOf h]

/-- Writing is staging and committing. -/
theorem run_writeSegments {staged : List (StagedFile × Path)} {t₁ t₂ : FileTree}
    {r : Except FileError Unit}
    (hstage : (stageAll (filesOf segments p format) : StateM FileTree _).run t = (.ok staged, t₁))
    (hcommit : (commitAll [] staged : StateM FileTree _).run t₁ = (r, t₂)) :
    (writeSegments segments p format : StateM FileTree _).run t
      = (r.map fun _ => segmentPaths p segments, t₂) := by
  rw [filesOf] at hstage
  rw [writeSegments, run_bind, hstage]
  show (((commitAll [] staged : StateM FileTree _) >>= _).run _) = _
  rw [run_bind, hcommit]
  cases r <;> rfl

/-- What writing comes to. -/
inductive Outcome (t : FileTree) (segments : List Segment) (p : Path) (format : OutputFormat) :
    Except FileError (List Path) × FileTree → Prop
  | refused (e : FileError) : Outcome t segments p format (.error e, t)
  /-- The first files are put in their places before one cannot be, and are then removed. -/
  | rolledBack {moved : List Path} {places : List (List String)} {t' : FileTree} (e : FileError)
      (hmoved : moved <+: segmentPaths p segments) (hplaces : List.Forall₂ t.Takes moved places)
      (hwaiting : t'.waiting = t.waiting)
      (hnode : ∀ names, t'.node? names = if names ∈ places then none else t.node? names) :
      Outcome t segments p format (.error e, t')
  | done {staged : List (StagedFile × Path)} {places : List (List String)} {t' : FileTree}
      (htargets : staged.map Prod.snd = (filesOf segments p format).map Prod.fst)
      (hbytes : staged.map (fun s => s.1.bytes) = (filesOf segments p format).map Prod.snd)
      (h : Placed (t.withWaiting staged) t' staged places) (hwaiting : t'.waiting = t.waiting) :
      Outcome t segments p format (.ok (segmentPaths p segments), t')

theorem outcome_writeSegments (segments : List Segment) (p : Path) (format : OutputFormat)
    (t : FileTree) : Outcome t segments p format
      ((writeSegments segments p format : StateM FileTree _).run t) := by
  have hstaging := staging_stageAll (filesOf segments p format) t
  rw [filesOf] at hstaging
  rw [writeSegments, run_bind]
  generalize (stageAll ((segmentPaths p segments).zip _) : StateM FileTree _).run t = result
    at hstaging
  cases hstaging with
  | refused e => exact .refused e
  | done staged htargets hbytes =>
      have hcommitting := committing_commitAll [] staged (t.withWaiting staged)
      show Outcome _ _ _ _ (((commitAll [] staged : StateM FileTree _) >>= _).run _)
      rw [run_bind]
      generalize (commitAll [] staged : StateM FileTree _).run _ = result at hcommitting
      cases hcommitting with
      | done h =>
          obtain ⟨places, hplaced⟩ := exists_placed_of_commits h
          refine .done htargets hbytes hplaced ?_
          rw [hplaced.waiting, waiting_diff_withWaiting]
      | @failed before later last aim t₁ e hitems h _ =>
          obtain ⟨places, hplaced⟩ := exists_placed_of_commits h
          have hsame := (t.sameDirectories_withWaiting staged).symm.trans hplaced.directories
          have htakes : List.Forall₂ t.Takes (before.map Prod.snd) places := by
            rw [List.forall₂_map_left_iff]
            exact hplaced.takes.imp fun item names h =>
              h.congr (t.sameDirectories_withWaiting staged)
          -- the directories are still the same, so what was put there is found and removed
          obtain ⟨hwaiting, hnode⟩ := removedAll_spec (t := { t₁ with
              waiting := t₁.waiting.diff (last :: later.map Prod.fst) })
            (htakes.imp fun p names h => h.congr hsame)
          refine .rolledBack e ?_ htakes ?_ ?_
          · have hprefix : before.map Prod.snd <+: (filesOf segments p format).map Prod.fst := by
              rw [filesOf, ← htargets, hitems, List.map_append]
              exact List.prefix_append ..
            exact hprefix.trans (prefix_map_fst_filesOf ..)
          · have hgiven := t.waiting_diff_withWaiting staged
            rw [hitems, List.map_append, List.map_cons, List.diff_append] at hgiven
            rw [List.nil_append, hwaiting, hplaced.waiting, hitems, hgiven]
          · intro names
            rw [List.nil_append, hnode]
            split_ifs with hmem
            · rfl
            · exact hplaced.elsewhere names hmem

/-! ## Writing that fails -/

/-- The places that a write that fails has taken and left again. -/
theorem exists_places_of_error {e : FileError}
    (h : (writeSegments segments p format : StateM FileTree _).run t = (.error e, t')) :
    t'.waiting = t.waiting ∧ ∃ moved places, moved <+: segmentPaths p segments
      ∧ List.Forall₂ t.Takes moved places
      ∧ ∀ names, t'.node? names = if names ∈ places then none else t.node? names := by
  have houtcome := outcome_writeSegments segments p format t
  rw [h] at houtcome
  cases houtcome with
  | refused e => exact ⟨rfl, [], [], List.nil_prefix, .nil, by simp⟩
  | rolledBack e hmoved hplaces hwaiting hnode =>
      exact ⟨hwaiting, _, _, hmoved, hplaces, hnode⟩

/-- **A write that fails leaves no file of its own behind**, waiting or in its place.  But it does
not bring back what it had replaced: the tree is as it was exactly if there was no file in the
places that were taken. -/
theorem rolledBack_of_writeSegments {e : FileError}
    (h : (writeSegments segments p format : StateM FileTree _).run t = (.error e, t')) :
    t'.waiting = t.waiting ∧ ∃ moved places, moved <+: segmentPaths p segments
      ∧ List.Forall₂ t.Takes moved places
      ∧ (∀ names, t'.node? names = if names ∈ places then none else t.node? names)
      ∧ ((∀ names, t'.node? names = t.node? names) ↔ ∀ names ∈ places, t.node? names = none) := by
  obtain ⟨hwaiting, moved, places, hmoved, hplaces, hnode⟩ := exists_places_of_error h
  refine ⟨hwaiting, moved, places, hmoved, hplaces, hnode, ?_⟩
  constructor
  · intro hsame names hmem
    rw [← hsame, hnode, if_pos hmem]
  · intro hnone names
    rw [hnode]
    split_ifs with hmem
    · rw [hnone names hmem]
    · rfl

/-- A write that fails changes nothing if there was no file where it could put one. -/
theorem unchanged_of_error {e : FileError}
    (h : (writeSegments segments p format : StateM FileTree _).run t = (.error e, t'))
    (hfree : ∀ q ∈ segmentPaths p segments, ∀ names, t.Takes q names → t.node? names = none)
    (names : List String) : t'.node? names = t.node? names := by
  obtain ⟨-, moved, places, hmoved, hplaces, hnode⟩ := exists_places_of_error h
  rw [hnode]
  split_ifs with hmem
  · obtain ⟨hlength, hplaces⟩ := List.forall₂_iff_get.mp hplaces
    obtain ⟨k, hk, rfl⟩ := List.mem_iff_getElem.mp hmem
    have htakes := hplaces k (hlength ▸ hk) hk
    exact (hfree _ (hmoved.subset (List.getElem_mem _)) _ htakes).symm
  · rfl

/-! ## A directory in the way

There is a file where the first segment goes, and a directory where the second one goes.
-/

def FileTree.obstructed : FileTree where
  nodes := [(["anim-a000.prg"], .file [111, 108, 100]), (["anim-c000.prg"], .directory)]

def obstructedSegments : List Segment :=
  [⟨0xA000, [1, 2]⟩, ⟨0xC000, [3]⟩]

/-- The directory alone is left. -/
def FileTree.bereft : FileTree where
  nodes := [(["anim-c000.prg"], .directory)]

/-- What is staged for the segments, each with its path. -/
def obstructedFiles : List (StagedFile × Path) :=
  [(⟨⟨"."⟩, [0x00, 0xA0, 1, 2]⟩, ⟨"anim-a000.prg"⟩), (⟨⟨"."⟩, [0x00, 0xC0, 3]⟩, ⟨"anim-c000.prg"⟩)]

theorem run_writeSegments_obstructed :
    (writeSegments obstructedSegments ⟨"anim.prg"⟩ .prg : StateM FileTree _).run obstructed
      = (.error .isDirectory, bereft) := by
  have hfiles : filesOf obstructedSegments ⟨"anim.prg"⟩ .prg
      = obstructedFiles.map fun s => (s.2, s.1.bytes) := by rfl
  have hstage : (stageAll (filesOf obstructedSegments ⟨"anim.prg"⟩ .prg) :
      StateM FileTree _).run obstructed
        = (.ok obstructedFiles, obstructed.withWaiting obstructedFiles) := by
    rw [hfiles]
    rfl
  have hcommit : (commitAll [] obstructedFiles : StateM FileTree _).run
      (obstructed.withWaiting obstructedFiles) = (.error .isDirectory, bereft) := by rfl
  rw [run_writeSegments hstage hcommit]
  rfl

/-- The place of the first segment is taken before the write fails. -/
theorem rolledBack_of_writeSegments_obstructed :
    ∃ moved places, moved <+: segmentPaths ⟨"anim.prg"⟩ obstructedSegments
      ∧ List.Forall₂ obstructed.Takes moved places
      ∧ (∀ names, bereft.node? names
        = if names ∈ places then none else obstructed.node? names)
      ∧ ["anim-a000.prg"] ∈ places := by
  obtain ⟨-, moved, places, hmoved, hplaces, hnode, -⟩ :=
    rolledBack_of_writeSegments run_writeSegments_obstructed
  refine ⟨moved, places, hmoved, hplaces, hnode, ?_⟩
  by_contra hmem
  have hlost := hnode ["anim-a000.prg"]
  have hnone : bereft.node? ["anim-a000.prg"] = none := by rfl
  have hfile : obstructed.node? ["anim-a000.prg"] = some (.file [111, 108, 100]) := by rfl
  rw [if_neg hmem, hnone, hfile] at hlost
  cases hlost

/-- **The older file is lost**, though nothing is written. -/
theorem older_file_lost :
    (writeSegments obstructedSegments ⟨"anim.prg"⟩ .prg : StateM FileTree _).run obstructed
        = (.error .isDirectory, bereft)
      ∧ obstructed.node? ["anim-a000.prg"] = some (.file [111, 108, 100])
      ∧ bereft.node? ["anim-a000.prg"] = none :=
  ⟨run_writeSegments_obstructed, by rfl, by rfl⟩

end DeltaScript
