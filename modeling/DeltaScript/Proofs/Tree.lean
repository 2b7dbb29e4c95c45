import DeltaScript.Proofs.Paths
import DeltaScript.Proofs.Stages

/-!
# Putting files into a tree

Files that are put into a tree or taken out of it leave the directories as they are, and only
directories decide where a path leads.  So the place of every file can be told from the tree as it
was in the beginning.

* `FileTree.SameDirectories` — two trees have the same directories.
* `FileTree.Reaches` — a walk that ends in a directory.  **It is the same in trees with the same
  directories** (`FileTree.Reaches.congr`).
* `FileTree.Takes` — a file can be put at a path, which leads to certain names.
* `FileTree.commit_eq_ok_iff`, `FileTree.node?_removed` — what a commit and a removal do to a tree.
* `FileTree.Placed`, `FileTree.exists_placed_of_commits` — what several commits do.
* `FileTree.removedAll_spec` — what several removals do.
-/

namespace DeltaScript.FileTree

variable {t t' : FileTree} {p : Path} {names other : List String} {node : FileNode}

/-! ## Nodes -/

/-- Looking up what is left of an association by its keys. -/
theorem lookup_filter (keep : List String → Bool) (key : List String)
    (nodes : List (List String × FileNode)) :
    (nodes.filter fun n => keep n.1).lookup key
      = if keep key then nodes.lookup key else none := by
  induction nodes with
  | nil => simp
  | cons first rest ih =>
      obtain ⟨name, node⟩ := first
      by_cases heq : key = name
      · subst heq
        cases hkeep : keep key <;> simp [hkeep, ih]
      · have hne : (key == name) = false := by simpa using heq
        cases hkeep : keep name <;> simp [hkeep, List.lookup_cons, hne, ih]

theorem node?_drop (hnames : names ≠ []) (other : List String) :
    (t.drop names).node? other = if other = names then none else t.node? other := by
  rw [node?, node?, drop, lookup_filter (· != names)]
  by_cases hnil : other = []
  · simp [hnil, hnames.symm]
  · by_cases heq : other = names
    · simp [heq, hnames]
    · simp [heq]

theorem node?_put (hnames : names ≠ []) (other : List String) :
    (t.put names node).node? other = if other = names then some node else t.node? other := by
  have hdrop := node?_drop (t := t) hnames other
  rw [node?, put, List.lookup_cons]
  by_cases heq : other = names
  · simp [heq, hnames]
  · rw [if_neg heq] at hdrop ⊢
    have hne : (other == names) = false := by simpa using heq
    rw [hne]
    exact hdrop

/-! ## Directories -/

/-- Two trees have the same directories. -/
def SameDirectories (t t' : FileTree) : Prop :=
  ∀ names, t.node? names = some .directory ↔ t'.node? names = some .directory

namespace SameDirectories

theorem rfl (t : FileTree) : SameDirectories t t := fun _ => Iff.rfl

theorem symm (h : SameDirectories t t') : SameDirectories t' t := fun names => (h names).symm

theorem trans {t'' : FileTree} (h : SameDirectories t t') (h' : SameDirectories t' t'') :
    SameDirectories t t'' := fun names => (h names).trans (h' names)

theorem found? (h : SameDirectories t t') (place : Place) :
    t.found? place = some .directory ↔ t'.found? place = some .directory := by
  cases place with
  | inside names => exact h names
  | outside => exact Iff.rfl

end SameDirectories

/-- What stands in place of a file or of nothing is no directory. -/
theorem sameDirectories_of_node? {new : Option FileNode} (hnames : t.node? names ≠ some .directory)
    (hnew : new ≠ some .directory)
    (h : ∀ other, t'.node? other = if other = names then new else t.node? other) :
    SameDirectories t t' := by
  intro other
  rw [h]
  split_ifs with heq
  · rw [heq]
    exact iff_of_false hnames hnew
  · exact Iff.rfl

/-! ## Walks -/

/-- A walk that ends in a directory. -/
def Reaches (t : FileTree) (place : Place) (parts : List PathPart) (dest : Place) : Prop :=
  parts.foldlM t.follow place = .ok dest ∧ t.found? dest = some .directory

theorem follow_eq_ok_iff {place next : Place} {part : PathPart} :
    t.follow place part = .ok next ↔ t.found? place = some .directory ∧
      match part with
      | .root => next = .outside
      | .here => next = place
      | .up => next = place.above
      | .name text => t.enter place text = .ok next := by
  rw [follow.eq_def]
  split_ifs with hplace
  · simp [hplace]
  · have hplace := not_not.mp hplace
    cases part <;> simp [hplace, eq_comm]

/-- A name leads into the tree, and is found there. -/
theorem enter_eq_ok_iff {place next : Place} {text : String} :
    t.enter place text = .ok next ↔ checkName text = .ok () ∧ ∃ names, place = .inside names
      ∧ (t.node? (names ++ [text])).isSome ∧ next = .inside (names ++ [text]) := by
  rw [enter.eq_def, bind_eq_ok_iff]
  constructor
  · rintro ⟨_, htext, h⟩
    cases place with
    | outside => cases h
    | inside names =>
        simp only at h
        split_ifs at h with hfound
        cases h
        exact ⟨htext, names, rfl, hfound, rfl⟩
  · rintro ⟨htext, names, rfl, hfound, rfl⟩
    exact ⟨(), htext, if_pos hfound⟩

namespace Reaches

variable {place dest : Place} {parts : List PathPart} {part : PathPart}

theorem nil (h : t.Reaches place [] dest) : dest = place ∧ t.found? place = some .directory := by
  obtain ⟨hwalk, hdest⟩ := h
  obtain rfl := Except.ok.inj hwalk
  exact ⟨rfl, hdest⟩

theorem cons_iff : t.Reaches place (part :: parts) dest ↔
    ∃ next, t.follow place part = .ok next ∧ t.Reaches next parts dest := by
  rw [Reaches, List.foldlM_cons, bind_eq_ok_iff]
  constructor
  · rintro ⟨⟨next, hnext, hwalk⟩, hdest⟩
    exact ⟨next, hnext, hwalk, hdest⟩
  · rintro ⟨next, hnext, hwalk, hdest⟩
    exact ⟨⟨next, hnext, hwalk⟩, hdest⟩

/-- **A walk to a directory starts in one.** -/
theorem found? (h : t.Reaches place parts dest) : t.found? place = some .directory := by
  cases parts with
  | nil => exact h.nil.2
  | cons part parts =>
      obtain ⟨next, hnext, -⟩ := cons_iff.mp h
      exact (follow_eq_ok_iff.mp hnext).1

/-- **Only the directories of a tree decide where a walk to a directory leads.** -/
theorem congr (hsame : SameDirectories t t') (h : t.Reaches place parts dest) :
    t'.Reaches place parts dest := by
  induction parts generalizing place with
  | nil =>
      obtain ⟨rfl, hplace⟩ := h.nil
      exact ⟨rfl, (hsame.found? _).mp hplace⟩
  | cons part parts ih =>
      obtain ⟨next, hnext, h⟩ := cons_iff.mp h
      refine cons_iff.mpr ⟨next, ?_, ih h⟩
      rw [follow_eq_ok_iff] at hnext ⊢
      refine ⟨(hsame.found? _).mp hnext.1, ?_⟩
      cases part with
      | name text =>
          -- what is entered is a directory, since the walk goes on from there
          obtain ⟨htext, names, rfl, -, rfl⟩ := enter_eq_ok_iff.mp hnext.2
          have hfound := (hsame.found? _).mp h.found?
          refine enter_eq_ok_iff.mpr ⟨htext, names, rfl, ?_, rfl⟩
          show (t'.found? (.inside (names ++ [text]))).isSome
          rw [hfound]
          rfl
      | root => exact hnext.2
      | here => exact hnext.2
      | up => exact hnext.2

end Reaches

/-! ## Places of files -/

/-- A path that ends in a slash asks for a directory. -/
def asksForDirectory (p : Path) : Bool :=
  p.steps.getLast?.any (·.isEmpty)

/-- **A file has a place if its path leads to a directory in the tree and ends in a name.** -/
theorem findPlace_eq_ok_iff : t.findPlace p = .ok names ↔ checkPath p = .ok ()
    ∧ asksForDirectory p = false ∧ ∃ lead text above, route p = lead ++ [.name text]
      ∧ t.Reaches .top lead (.inside above) ∧ checkName text = .ok ()
      ∧ names = above ++ [text] := by
  rw [findPlace]
  cases hslash : asksForDirectory p with
  | true =>
      have hslash : p.steps.getLast?.any (·.isEmpty) = true := hslash
      simp only [hslash, if_true, Bool.true_eq_false, false_and, and_false, iff_false]
      intro h
      obtain ⟨_, -, h⟩ := bind_eq_ok_iff.mp h
      obtain ⟨above, -, h⟩ := bind_eq_ok_iff.mp h
      split_ifs at h
      · cases h
      · split at h
        · obtain ⟨_, -, h⟩ := bind_eq_ok_iff.mp h
          cases h
        · cases h
  | false =>
      have hslash : p.steps.getLast?.any (·.isEmpty) = false := hslash
      simp only [hslash, Bool.false_eq_true, if_false, true_and]
      constructor
      · intro h
        obtain ⟨_, hpath, h⟩ := bind_eq_ok_iff.mp h
        obtain ⟨above, hwalk, h⟩ := bind_eq_ok_iff.mp h
        split_ifs at h with habove
        · cases h
        · split at h
          · next text hlast =>
              obtain ⟨_, htext, h⟩ := bind_eq_ok_iff.mp h
              cases above with
              | outside => cases h
              | inside above =>
                  cases h
                  have hroute := List.dropLast_append_getLast? _ hlast
                  exact ⟨hpath, _, text, above, hroute.symm, ⟨hwalk, not_not.mp habove⟩, htext,
                    rfl⟩
          · cases h
      · rintro ⟨hpath, lead, text, above, hroute, ⟨hwalk, habove⟩, htext, rfl⟩
        rw [hroute, List.dropLast_concat, List.getLast?_concat]
        refine bind_eq_ok_iff.mpr ⟨(), hpath, bind_eq_ok_iff.mpr ⟨_, hwalk, ?_⟩⟩
        rw [if_neg (not_not.mpr habove)]
        exact bind_eq_ok_iff.mpr ⟨(), htext, rfl⟩

theorem find_of_findPlace (h : t.findPlace p = .ok names) (hfound : (t.node? names).isSome) :
    t.find p = .ok (.inside names) := by
  obtain ⟨hpath, -, lead, text, above, hroute, hreaches, htext, rfl⟩ := findPlace_eq_ok_iff.mp h
  rw [find, hpath, hroute]
  show (lead ++ [PathPart.name text]).foldlM t.follow .top = _
  rw [List.foldlM_append, hreaches.1]
  show [PathPart.name text].foldlM t.follow (.inside above) = _
  have hfollow : t.follow (.inside above) (.name text) = .ok (.inside (above ++ [text])) :=
    follow_eq_ok_iff.mpr ⟨hreaches.2, enter_eq_ok_iff.mpr ⟨htext, above, rfl, hfound, rfl⟩⟩
  rw [List.foldlM_cons, hfollow]
  rfl

/-- **The place of a file has the file name of the path.** -/
theorem getLast?_of_findPlace (h : t.findPlace p = .ok names) : names.getLast? = p.fileName? := by
  obtain ⟨-, hslash, lead, text, above, hroute, -, -, rfl⟩ := findPlace_eq_ok_iff.mp h
  rw [asksForDirectory] at hslash
  rw [List.getLast?_concat]
  rcases List.eq_nil_or_concat' p.steps with hsteps | ⟨before, last, hsteps⟩
  · have hlast := congrArg List.getLast? hroute
    cases hrooted : p.isRooted <;> simp [route, hsteps, hrooted] at hlast
  · have hlast : last ≠ [] := by simpa [hsteps] using hslash
    have hroute := congrArg List.getLast? hroute
    have hpart : Path.partOf last = .name text := by simpa [route, hsteps, hlast] using hroute
    have hidle : Path.isIdle p.isRooted (last, before.length) = false := by
      simp [Path.isIdle, hlast, (Path.partOf_eq_name_iff.mp hpart).1]
    have hparts : p.parts.getLast? = some (.name text) := by
      simp [Path.parts, hsteps, List.zipIdx_append, List.filter_append, hidle, hpart]
    rw [Path.fileName?, hparts]

/-- A file can be put at a path, which leads to given names. -/
def Takes (t : FileTree) (p : Path) (names : List String) : Prop :=
  t.findPlace p = .ok names ∧ t.node? names ≠ some .directory

namespace Takes

theorem ne_nil (h : t.Takes p names) : names ≠ [] := by
  obtain ⟨-, -, -, text, above, -, -, -, rfl⟩ := findPlace_eq_ok_iff.mp h.1
  simp

/-- **Where a file can be put depends on the directories only.** -/
theorem congr (hsame : SameDirectories t t') (h : t.Takes p names) : t'.Takes p names := by
  refine ⟨?_, fun hnode => h.2 ((hsame names).mpr hnode)⟩
  obtain ⟨hpath, hslash, lead, text, above, hroute, hreaches, htext, rfl⟩ :=
    findPlace_eq_ok_iff.mp h.1
  exact findPlace_eq_ok_iff.mpr
    ⟨hpath, hslash, lead, text, above, hroute, hreaches.congr hsame, htext, rfl⟩

/-- What was put at a path is read from it. -/
theorem read_eq (h : t.Takes p names) {bytes : List UInt8} (hsame : SameDirectories t t')
    (hfile : t'.node? names = some (.file bytes)) : t'.read p = .ok bytes := by
  have hfind := find_of_findPlace (h.congr hsame).1 (by rw [hfile]; rfl)
  have hfound : t'.found? (.inside names) = some (.file bytes) := hfile
  refine bind_eq_ok_iff.mpr ⟨_, hfind, ?_⟩
  simp only [hfound]
  rfl

end Takes

/-! ## One file -/

/-- **All that a commit does**: it puts the file where one can be put. -/
theorem commit_eq_ok_iff {staged : StagedFile} : t.commit staged p = .ok t' ↔
    ∃ names, t.Takes p names ∧ t' = (t.discard staged).put names (.file staged.bytes) := by
  rw [commit, bind_eq_ok_iff]
  constructor
  · rintro ⟨names, hplace, h⟩
    split_ifs at h with hnode
    · cases h
    · exact ⟨names, ⟨hplace, hnode⟩, (Except.ok.inj h).symm⟩
  · rintro ⟨names, ⟨hplace, hnode⟩, rfl⟩
    exact ⟨names, hplace, if_neg hnode⟩

/-- The tree without the file at a path, or as it was if none can be removed there. -/
def removed (t : FileTree) (p : Path) : FileTree :=
  match t.remove p with
  | .ok t => t
  | .error _ => t

/-- **All that a removal does** where a file can be put. -/
theorem node?_removed (h : t.Takes p names) (other : List String) :
    (t.removed p).node? other = if other = names then none else t.node? other := by
  cases hnode : t.node? names with
  | none =>
      have hremove : t.remove p = .error .notFound :=
        bind_eq_error_iff.mpr (Or.inr ⟨names, h.1, by rw [hnode]; rfl⟩)
      rw [removed, hremove]
      show t.node? other = _
      split_ifs with heq
      · rw [heq, hnode]
      · rfl
  | some node =>
      cases node with
      | file bytes =>
          have hremove : t.remove p = .ok (t.drop names) :=
            bind_eq_ok_iff.mpr ⟨names, h.1, by rw [hnode]; rfl⟩
          rw [removed, hremove]
          exact node?_drop h.ne_nil other
      | directory => exact absurd hnode h.2

theorem waiting_removed (t : FileTree) (p : Path) : (t.removed p).waiting = t.waiting := by
  rw [removed]
  cases hremove : t.remove p with
  | error e => rfl
  | ok t' =>
      obtain ⟨names, -, h⟩ := bind_eq_ok_iff.mp hremove
      split at h
      · cases h
        rfl
      · cases h
      · cases h

/-! ## Several files -/

variable {items : List (StagedFile × Path)} {places : List (List String)}

/-- Staged files, committed one after the other. -/
def commits (t : FileTree) (items : List (StagedFile × Path)) : Except FileError FileTree :=
  items.foldlM (fun t (staged, p) => t.commit staged p) t

/-- What several commits do to a tree. -/
structure Placed (t t' : FileTree) (items : List (StagedFile × Path))
    (places : List (List String)) : Prop where
  takes : List.Forall₂ (fun item names => t.Takes item.2 names) items places
  directories : SameDirectories t t'
  waiting : t'.waiting = t.waiting.diff (items.map Prod.fst)
  /-- Nothing else changes. -/
  elsewhere : ∀ names ∉ places, t'.node? names = t.node? names
  /-- No file takes the place of another one, unless two have the same place. -/
  files : places.Nodup →
    List.Forall₂ (fun item names => t'.node? names = some (.file item.1.bytes)) items places

theorem placed_nil (t : FileTree) : Placed t t [] [] :=
  ⟨.nil, .rfl t, by simp, by simp, fun _ => .nil⟩

/-- One file in front of the others. -/
theorem Placed.cons {t₁ : FileTree} {staged : StagedFile} (hcommit : t.commit staged p = .ok t₁)
    (h : Placed t₁ t' items places) :
    ∃ names, Placed t t' ((staged, p) :: items) (names :: places) := by
  obtain ⟨names, htakes, rfl⟩ := commit_eq_ok_iff.mp hcommit
  have hnode : ∀ other, ((t.discard staged).put names (.file staged.bytes)).node? other
      = if other = names then some (.file staged.bytes) else t.node? other :=
    node?_put htakes.ne_nil
  have hsame : SameDirectories t ((t.discard staged).put names (.file staged.bytes)) :=
    sameDirectories_of_node? htakes.2 (by simp) hnode
  -- what the later files are put at can be told from the tree before this one
  refine ⟨names, .cons htakes ?_, hsame.trans h.directories, ?_, ?_, ?_⟩
  · exact h.takes.imp fun item names htakes => htakes.congr hsame.symm
  · rw [h.waiting, List.map_cons, List.diff_cons]
    rfl
  · intro other hother
    rw [List.mem_cons, not_or] at hother
    rw [h.elsewhere other hother.2, hnode, if_neg hother.1]
  · intro hnodup
    rw [List.nodup_cons] at hnodup
    refine .cons ?_ (h.files hnodup.2)
    rw [h.elsewhere names hnodup.1, hnode, if_pos rfl]

/-- **What several commits do**, by induction on them. -/
theorem exists_placed_of_commits (h : t.commits items = .ok t') :
    ∃ places, Placed t t' items places := by
  induction items generalizing t with
  | nil =>
      obtain rfl := Except.ok.inj h
      exact ⟨[], placed_nil t⟩
  | cons item items ih =>
      obtain ⟨t₁, hcommit, h⟩ := bind_eq_ok_iff.mp h
      obtain ⟨places, hplaced⟩ := ih h
      obtain ⟨names, hplaced⟩ := hplaced.cons hcommit
      exact ⟨_, hplaced⟩

namespace Placed

/-- Files with different names have different places. -/
theorem nodup_places (h : Placed t t' items places)
    (hnames : ((items.map Prod.snd).map Path.fileName?).Nodup) : places.Nodup := by
  have hlast : places.map List.getLast? = (items.map Prod.snd).map Path.fileName? := by
    rw [List.map_map, ← List.forall₂_eq_eq_eq, List.forall₂_map_left_iff,
      List.forall₂_map_right_iff]
    exact h.takes.flip.imp fun names item htakes => getLast?_of_findPlace htakes.1
  rw [← hlast] at hnames
  exact hnames.of_map

end Placed

/-- **What several removals do.** -/
theorem removedAll_spec {paths : List Path} (h : List.Forall₂ t.Takes paths places) :
    (paths.foldl removed t).waiting = t.waiting
      ∧ ∀ names, (paths.foldl removed t).node? names
        = if names ∈ places then none else t.node? names := by
  induction paths generalizing t places with
  | nil =>
      cases h
      simp
  | cons p paths ih =>
      obtain ⟨names, rest, hp, hpaths, rfl⟩ := List.forall₂_cons_left_iff.mp h
      have hnode := node?_removed hp
      have hsame : SameDirectories t (t.removed p) :=
        sameDirectories_of_node? hp.2 (by simp) hnode
      obtain ⟨hwaiting, hrest⟩ := ih (hpaths.imp fun p names hp => hp.congr hsame)
      refine ⟨hwaiting.trans (waiting_removed t p), fun other => ?_⟩
      rw [List.foldl_cons, hrest, hnode]
      by_cases hother : other = names
      · simp [hother]
      · simp [hother]

end DeltaScript.FileTree
