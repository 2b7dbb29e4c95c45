import DeltaScript.Proofs.Listing
import DeltaScript.Proofs.Tables

/-!
# Scripts are sound bytecode

The encoding cuts fields that are too wide, so that a sleep of 64 frames would silently become the
end.  Nothing of the kind happens to a script: **every instruction that is compiled fits its
encoding, and names a delta that is there.**

* `Cue.InRange`, `Direction.exists_cues` — an object has a cue for each of its frames: a hold, a
  state, or a delta that is ranked.
* `Cue.length_unpack` — instructions account for as many frames as they stand for cues.
* `Instruction.size_le` — nothing but the end takes more than three bytes for a frame.
* `Script.IsSound`, `Session.isSound_script` — **what a player can rely on.**
-/

namespace DeltaScript

/-! ## Cues -/

namespace Cue

/-- A hold, a state, or one of `size` deltas. -/
def InRange (size : ℕ) : Cue → Prop
  | hold => True
  | play (.state _ _ _) => True
  | play (.delta index) => index.toNat < size
  | play _ => False

theorem InRange.isPlain {size : ℕ} {cue : Cue} (h : cue.InRange size) : cue.IsPlain := by
  cases cue with
  | hold => trivial
  | play i =>
      cases i with
      | sleep n => exact h
      | _ => trivial

/-- **Instructions account for as many frames as they stand for cues**, the end apart. -/
theorem length_unpack {instructions : List Instruction} (h : .finish ∉ instructions) :
    (unpack instructions).length = (instructions.map Instruction.frames).sum := by
  induction instructions with
  | nil => rfl
  | cons i rest ih =>
      rw [List.mem_cons, not_or] at h
      rw [unpack_cons, List.length_append, ih h.2, List.map_cons, List.sum_cons]
      congr 1
      cases i with
      | sleep n => exact List.length_replicate
      | finish => exact absurd rfl h.1
      | delta index => rfl
      | state x y angle => rfl

/-- An instruction that is played in a frame is one of the instructions. -/
theorem mem_of_play_mem_unpack {instructions : List Instruction} {i : Instruction}
    (h : play i ∈ unpack instructions) : i ∈ instructions := by
  obtain ⟨j, hj, hplay⟩ := List.mem_flatMap.mp h
  cases j with
  | sleep n => cases List.eq_of_mem_replicate hplay
  | delta index =>
      cases List.mem_singleton.mp hplay
      exact hj
  | state x y angle =>
      cases List.mem_singleton.mp hplay
      exact hj
  | finish =>
      cases List.mem_singleton.mp hplay
      exact hj

end Cue

namespace Direction

variable {d : Direction} {object : ℕ} {steps : List Step} {instructions : List Instruction}

theorem length_parked (frames : ℕ) : (d.parked frames).length = frames := by
  cases frames with
  | zero => rfl
  | succ n => simp [parked]

theorem inRange_of_mem_parked {size frames : ℕ} {cue : Cue} (h : cue ∈ d.parked frames) :
    cue.InRange size := by
  cases frames with
  | zero => cases h
  | succ n =>
      rcases List.mem_cons.mp h with rfl | h
      · trivial
      · rw [List.eq_of_mem_replicate h]
        trivial

theorem inRange_of_cueFor
    (hranking : ∀ delta index, d.ranking.index? delta = some index → index < 128) {step : Step}
    {cue : Cue} (h : d.cueFor object step = .ok cue) : cue.InRange d.ranking.size := by
  rcases (cueFor_eq_ok_iff hranking).mp h with
    ⟨-, rfl⟩ | ⟨-, delta, index, -, hindex, rfl⟩ | ⟨-, -, -, rfl⟩
  · trivial
  · show (UInt8.ofNat index).toNat < d.ranking.size
    rw [(Instruction.ofIndex_eq_ok (hranking delta index hindex)).2]
    exact Ranking.index?_lt_size hindex
  · trivial

/-- **An object has a cue for each of its frames**, and one of them is a state. -/
theorem exists_cues
    (hranking : ∀ delta index, d.ranking.index? delta = some index → index < 128)
    (h : d.instructions object steps = .ok instructions) :
    ∃ cues, instructions = Cue.pack cues [.finish] ∧ cues.length = steps.length
      ∧ (∀ c ∈ cues, c.InRange d.ranking.size)
      ∧ ∃ values, Cue.play (Instruction.truncated values) ∈ cues := by
  obtain ⟨cues, hcues, rfl⟩ := map_eq_ok_iff.mp h
  rcases hidden_or_seen d.visibility object steps with
    hhidden | ⟨before, first, later, rfl, hhidden, hseen⟩
  · rw [cues_of_hidden hhidden] at hcues
    cases hcues
  obtain ⟨-, -, rest, hrest, rfl⟩ := (cues_append_eq_ok_iff hhidden hseen).mp hcues
  refine ⟨_, rfl, ?_, ?_, first.state, by simp⟩
  · have hlength := (mapM_eq_ok_iff.mp hrest).length_eq
    simp [length_parked, hlength]
  · intro c hc
    rcases List.mem_append.mp hc with hc | hc
    · exact inRange_of_mem_parked hc
    rcases List.mem_cons.mp hc with rfl | hc
    · trivial
    · obtain ⟨step, -, hstep⟩ := exists_mem_of_mapM hrest hc
      exact inRange_of_cueFor hranking hstep

/-- **The end stands behind instructions that account for all frames**, a state among them. -/
theorem exists_body
    (hranking : ∀ delta index, d.ranking.index? delta = some index → index < 128)
    (h : d.instructions object steps = .ok instructions) :
    ∃ body, instructions = body ++ [.finish] ∧ .finish ∉ body
      ∧ (body.map Instruction.frames).sum = steps.length
      ∧ ∃ x y angle, .state x y angle ∈ body := by
  obtain ⟨cues, rfl, hlength, hrange, values, hstate⟩ := exists_cues hranking h
  have hfinish : .finish ∉ Cue.pack cues [] := by
    refine Cue.finish_notMem_pack ?_
    intro hmem
    exact hrange _ hmem
  have hunpack : Cue.unpack (Cue.pack cues []) = cues := by
    rw [Cue.unpack_pack fun c hc => (hrange c hc).isPlain]
    exact List.append_nil cues
  refine ⟨Cue.pack cues [], Cue.pack_eq_append cues _, hfinish, ?_, ?_⟩
  · rw [← Cue.length_unpack hfinish, hunpack, hlength]
  · obtain ⟨x, y, angle, htruncated, -⟩ := Instruction.exists_truncated values
    rw [htruncated, ← hunpack] at hstate
    exact ⟨x, y, angle, Cue.mem_of_play_mem_unpack hstate⟩

/-- **Only ranked deltas are named.** -/
theorem index_lt_of_mem_instructions
    (hranking : ∀ delta index, d.ranking.index? delta = some index → index < 128)
    (h : d.instructions object steps = .ok instructions) {index : UInt8}
    (hindex : .delta index ∈ instructions) : index.toNat < d.ranking.size := by
  obtain ⟨cues, rfl, -, hrange, -⟩ := exists_cues hranking h
  rcases Cue.mem_pack hindex with ⟨frames, hsleep⟩ | hcue | htail
  · obtain ⟨n, hn⟩ := Instruction.exists_eq_sleep_of_mem_sleeps hsleep
    cases hn
  · exact hrange _ hcue
  · cases List.mem_singleton.mp htail

end Direction

/-! ## Bytes -/

/-- **Nothing but the end takes more than three bytes for a frame.** -/
theorem Instruction.size_le {i : Instruction} (h : i.IsCanonical) (hi : i ≠ .finish) :
    i.size ≤ 3 * i.frames := by
  cases i with
  | delta index => simp [size, frames]
  | sleep n =>
      show 1 ≤ 3 * n.toNat
      have hpos := h.1
      omega
  | state x y angle => simp [size, frames]
  | finish => exact absurd rfl hi

theorem Instruction.sum_size_le {instructions : List Instruction}
    (h : ∀ i ∈ instructions, i.IsCanonical) (hfinish : .finish ∉ instructions) :
    (instructions.map size).sum ≤ 3 * (instructions.map frames).sum := by
  induction instructions with
  | nil => rfl
  | cons i rest ih =>
      rw [List.forall_mem_cons] at h
      rw [List.mem_cons, not_or] at hfinish
      have hfirst := size_le h.1 (Ne.symm hfinish.1)
      have hrest := ih h.2 hfinish.2
      simp only [List.map_cons, List.sum_cons]
      omega

/-! ## Scripts -/

/-- What a player can rely on in the script of an object with the given steps. -/
structure Script.IsSound (s : Script) (r : Reel) (steps : List Step) : Prop where
  /-- Decoding the bytes uses all of them up. -/
  spells : ∃ found, s.Spells found []
  /-- There is one end, behind everything else. -/
  finish : ∃ body, s.instructions = body ++ [.finish] ∧ .finish ∉ body
  /-- Every delta has an index, which all tables reach. -/
  delta : ∀ index, .delta index ∈ s.instructions → index.toNat < r.ranking.size
    ∧ index.toNat < 128 ∧ ∀ table ∈ r.tables, index.toNat < table.length
  sleep : ∀ n, .sleep n ∈ s.instructions → 1 ≤ n.toNat ∧ n.toNat ≤ 63
  state : ∀ x y angle, .state x y angle ∈ s.instructions → x.toNat ≤ 511 ∧ angle.toNat ≤ 31
  /-- The instructions account for all frames. -/
  frames : (s.instructions.map Instruction.frames).sum = steps.length
  four_le : 4 ≤ s.size
  size_le : s.size ≤ 3 * steps.length + 1

/-- Bytes that are encoded instructions are used up when they are decoded. -/
theorem Script.spells_of_bytes_eq {s : Script}
    (h : s.instructions.flatMap Instruction.encode = s.bytes) : ∃ found, s.Spells found [] := by
  obtain ⟨found, left, hspells⟩ := s.exists_spells
  have hleft : left = [] := by
    have hbytes := hspells.bytes_eq
    rw [← h] at hbytes
    simpa using hbytes
  exact ⟨found, hleft ▸ hspells⟩

/-- The bytes of a script that is compiled are the instructions that they spell, encoded. -/
theorem Direction.bytes_of_compile {d : Direction}
    (hranking : ∀ delta index, d.ranking.index? delta = some index → index < 128) {object : ℕ}
    {steps : List Step} {script : Script} (h : d.compile object steps = .ok script) :
    script.instructions.flatMap Instruction.encode = script.bytes := by
  have hdecoded := instructions_of_compile hranking h
  obtain ⟨instructions, hinstructions, rfl⟩ := map_eq_ok_iff.mp h
  rw [← Except.ok.inj (hinstructions.symm.trans hdecoded)]
  rfl

/-- **Every compiled script is sound.** -/
theorem Reel.isSound_of_script {r : Reel} (hsize : r.ranking.size ≤ Ranking.capacity)
    {visibility : Visibility} {object : ℕ} {script : Script}
    (h : r.script visibility object = .ok script) :
    script.IsSound r (r.tracks.steps object) := by
  have hranking : ∀ delta index, (r.direction visibility).ranking.index? delta = some index →
      index < 128 := by
    intro delta index hindex
    exact Nat.lt_of_lt_of_le (Ranking.index?_lt_size hindex) hsize
  have hinstructions := Direction.instructions_of_compile hranking h
  have hbytes := Direction.bytes_of_compile hranking h
  have hcanonical : ∀ i ∈ script.instructions, i.IsCanonical := fun i =>
    Direction.isCanonical_of_mem_instructions hranking hinstructions
  obtain ⟨body, hbody, hfinish, hframes, x, y, angle, hstate⟩ :=
    Direction.exists_body hranking hinstructions
  have hsum : script.size = (body.map Instruction.size).sum + 1 := by
    rw [Script.size, ← hbytes, Instruction.length_flatMap_encode, hbody]
    simp [Instruction.size]
  constructor
  case spells => exact Script.spells_of_bytes_eq hbytes
  case finish => exact ⟨body, hbody, hfinish⟩
  case delta =>
    intro index hindex
    have hlt := Direction.index_lt_of_mem_instructions hranking hinstructions hindex
    refine ⟨hlt, Nat.lt_of_lt_of_le hlt hsize, ?_⟩
    intro table htable
    rwa [Reel.length_of_mem_tables htable]
  case sleep => exact fun n hn => hcanonical _ hn
  case state => exact fun x y angle hstate => hcanonical _ hstate
  case frames =>
    rw [hbody, ← hframes]
    simp [Instruction.frames]
  case four_le =>
    have hthree : 3 ≤ (body.map Instruction.size).sum :=
      List.single_le_sum (by simp) _ (List.mem_map_of_mem hstate)
    omega
  case size_le =>
    have hmembers : ∀ i ∈ body, i.IsCanonical := fun i hi => hcanonical i (by simp [hbody, hi])
    have hle := Instruction.sum_size_le hmembers hfinish
    omega

namespace Session

variable {objects : ℕ} {settings : Settings} {start session : Session}
  {frames : List (ℕ × Values)}

/-- **The scripts of a recording are sound bytecode.**  What their bytes spell are the instructions
that were compiled, which account for the frames that were recorded of the object. -/
theorem isSound_script (hstart : Session.start objects settings = .ok start)
    (hrecord : start.recordAll frames = .ok session) {visibility : Visibility} {object : ℕ}
    {script : Script} (hscript : session.finish.script visibility object = .ok script) :
    (session.finish.direction visibility).instructions object (session.tracks.steps object)
        = .ok script.instructions
      ∧ (session.tracks.steps object).map Step.state = (frames.filter (·.1 = object)).map Prod.snd
      ∧ script.IsSound session.finish (session.tracks.steps object) := by
  refine ⟨?_, states_of_recordAll hstart hrecord object, ?_⟩
  · exact Direction.instructions_of_compile (fun _ _ h => Ranking.index?_lt_capacity h) hscript
  · exact Reel.isSound_of_script (Tally.size_rank_le _) hscript

/-! ## A script that is full of ends

The byte of the end occurs four times, and three of them are fields of states.
-/

def beforeEnds : Session where
  settings := .ofCount 3
  tracks := .ofCount 1 (List.replicate 3 {})

/-- A jump, a step, a rest and another jump. -/
def endsFrames : List (ℕ × Values) :=
  [(0, [128, 128, 0]), (0, [129, 128, 0]), (0, [129, 128, 0]), (0, [384, 1, 31])]

def afterEnds : Session :=
  (beforeEnds.recordWhile endsFrames).1

def endsScript : Script :=
  ⟨0, [192, 128, 128, 0, 129, 255, 128, 1, 128]⟩

theorem isSound_script_ends : Session.start 1 (.ofCount 3) = .ok beforeEnds
    ∧ beforeEnds.recordAll endsFrames = .ok afterEnds
    ∧ afterEnds.finish.script afterEnds.finish.onScreen 0 = .ok endsScript
    ∧ endsScript.IsSound afterEnds.finish (afterEnds.tracks.steps 0) := by
  have hstart : Session.start 1 (.ofCount 3) = .ok beforeEnds := by rfl
  have hrecord : beforeEnds.recordAll endsFrames = .ok afterEnds := by rfl
  have hscript : afterEnds.finish.script afterEnds.finish.onScreen 0 = .ok endsScript := by cbv
  exact ⟨hstart, hrecord, hscript, (isSound_script hstart hrecord hscript).2.2⟩

end Session

end DeltaScript
