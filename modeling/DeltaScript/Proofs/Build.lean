import DeltaScript.Build
import DeltaScript.Proofs.Player
import DeltaScript.Proofs.Replay

/-!
# Playing a build replays the recording

A build goes into memory as segments.  A player that knows no more than where the header and the
first table are finds a script for every object there, and what the script shows is a replay.

* `Reel.build_eq_ok_iff` — what a build is made of.
* `Reel.tableBytes_blocks`, `Reel.scriptBytes_blocks` — what a reel has placed.
* `Tracks.length_steps_le`, `Tracks.exists_longest` — the step count is that of the longest track.
* `Session.play_build` — **the whole way from the recording through memory to the frames shown.**
-/

namespace DeltaScript

/-! ## The longest track -/

namespace Tracks

variable {t : Tracks}

/-- The length of the longest track is that of one of them, or zero, and no track is longer. -/
theorem maxSteps_spec (t : Tracks) :
    t.maxSteps ∈ 0 :: t.tracks.map Track.length
      ∧ ∀ n ∈ 0 :: t.tracks.map Track.length, n ≤ t.maxSteps :=
  List.max?_eq_some_iff.mp List.max?_cons'

theorem length_steps_le (t : Tracks) (object : ℕ) : (t.steps object).length ≤ t.maxSteps := by
  have hmax := t.maxSteps_spec.2
  rw [steps, Track.length_steps, List.getD_eq_getElem?_getD]
  cases htrack : t.tracks[object]? with
  | none => exact Nat.zero_le _
  | some track =>
      exact hmax _ (List.mem_cons_of_mem _ (List.mem_map_of_mem (List.mem_of_getElem? htrack)))

/-- **Some object has as many frames as the longest track**, if there is an object. -/
theorem exists_longest (hobjects : 0 < t.objects) :
    ∃ object < t.objects, (t.steps object).length = t.maxSteps := by
  rcases List.mem_cons.mp t.maxSteps_spec.1 with hzero | hmem
  · have hle := t.length_steps_le 0
    exact ⟨0, hobjects, by omega⟩
  · obtain ⟨track, htrack, hlength⟩ := List.mem_map.mp hmem
    obtain ⟨object, hobject, rfl⟩ := List.mem_iff_getElem.mp htrack
    refine ⟨object, hobject, ?_⟩
    rw [steps, Track.length_steps, List.getD_eq_getElem _ _ hobject, hlength]

end Tracks

/-! ## What a build is made of -/

namespace Reel

variable {r : Reel} {mode : Mode}

theorem build_eq_ok_iff {build : Build} :
    r.build mode = .ok build ↔ ∃ scripts layout, r.scripts r.onScreen = .ok scripts
      ∧ Layout.allocate (r.blocks scripts) mode = .ok layout ∧ build = ⟨r, scripts, layout⟩ := by
  rw [Reel.build, bind_eq_ok_iff]
  constructor
  · rintro ⟨scripts, hscripts, h⟩
    obtain ⟨layout, hlayout, h⟩ := bind_eq_ok_iff.mp h
    exact ⟨scripts, layout, hscripts, hlayout, (Except.ok.inj h).symm⟩
  · rintro ⟨scripts, layout, hscripts, hlayout, rfl⟩
    exact ⟨scripts, hscripts, bind_eq_ok_iff.mpr ⟨layout, hlayout, rfl⟩⟩

theorem length_scripts {visibility : Visibility} {scripts : List Script}
    (h : r.scripts visibility = .ok scripts) : scripts.length = r.tracks.objects := by
  have hlength := (mapM_eq_ok_iff.mp h).length_eq
  rw [List.length_range] at hlength
  exact hlength.symm

theorem script_of_scripts {visibility : Visibility} {scripts : List Script}
    (h : r.scripts visibility = .ok scripts) {object : ℕ} (hobject : object < r.tracks.objects) :
    ∃ script, scripts[object]? = some script ∧ r.script visibility object = .ok script := by
  have hlength := length_scripts h
  have hscript := (mapM_eq_ok_iff.mp h).get (i := object) (by simpa using hobject)
    (by rw [hlength]; exact hobject)
  refine ⟨scripts[object], List.getElem?_eq_getElem (by rw [hlength]; exact hobject), ?_⟩
  simpa using hscript

theorem length_tables_blocks (scripts : List Script) :
    (r.blocks scripts).tables.length = r.tracks.attributes.length := by
  simp [blocks, tables]

theorem tableBytes_blocks {scripts : List Script} {a : ℕ} (ha : a < r.tracks.attributes.length) :
    (r.blocks scripts).tableBytes a = r.ranking.table a := by
  simp [Blocks.tableBytes, blocks, tables, ha]

theorem scriptBytes_blocks {scripts : List Script} {object : ℕ} {script : Script}
    (h : scripts[object]? = some script) :
    (r.blocks scripts).scriptBytes object = script.bytes := by
  simp [Blocks.scriptBytes, blocks, h]

end Reel

/-! ## From the recording to the frames shown -/

/-- A script that was compiled is not empty: it has an end. -/
theorem Direction.length_bytes_pos {d : Direction} {object : ℕ} {steps : List Step}
    {script : Script} (h : d.compile object steps = .ok script) : 0 < script.bytes.length := by
  obtain ⟨instructions, hinstructions, rfl⟩ := map_eq_ok_iff.mp h
  obtain ⟨cues, -, rfl⟩ := map_eq_ok_iff.mp hinstructions
  rw [Cue.pack_eq_append, Script.ofInstructions, List.flatMap_append]
  simp [Instruction.encode]

namespace Session.Recorded

variable {objects : ℕ} {settings : Settings} {s : Session}

/-- **What is read from memory at the bytes of a script shows a replay**, to a player that knows the
deltas of the ranking. -/
theorem replays_of_bytes (hs : Recorded objects settings s) (hvalid : settings.IsValid)
    (hword : ∀ a ∈ settings.attributes, a.HasWordModulo) {visibility : Visibility} {object : ℕ}
    {script : Script} (hscript : s.finish.script visibility object = .ok script)
    {m : Memory} {position : ℕ}
    (hbytes : m.bytes position script.bytes.length = script.bytes)
    (hspace : position + script.bytes.length ≤ addressSpace)
    {delta? : ℕ → Option Delta} (hdelta : ∀ index change,
      s.finish.ranking.delta? index = some change → delta? index = some change) :
    ∃ body, m.instructionsUpToEnd position = some (body ++ [.finish])
      ∧ Instruction.finish ∉ body
      ∧ ∀ now, ∃ shown, Instruction.play delta? now (body ++ [.finish]) = some shown
        ∧ IsReplay settings visibility object (s.tracks.steps object) shown := by
  obtain ⟨instructions, hinstructions, rfl⟩ := map_eq_ok_iff.mp hscript
  have hcanonical := fun i hi => Direction.isCanonical_of_mem_instructions
    (fun _ _ h => Ranking.index?_lt_capacity h) hinstructions (i := i) hi
  obtain ⟨cues, hcues, rfl⟩ := map_eq_ok_iff.mp hinstructions
  have hreplay := hs.isReplay hvalid hword hcues
  obtain ⟨_, hshows, -⟩ := hreplay [0, 0, 0]
  obtain ⟨body, hpack, hbody⟩ := hshows.exists_body
  rw [hpack] at hbytes hspace hcanonical
  refine ⟨body, ?_, hbody, fun now => ?_⟩
  · exact Memory.instructionsUpToEnd_of_bytes hbody
      (fun i hi => hcanonical i (List.mem_append_left _ hi)) hbytes hspace
  · obtain ⟨shown, hshows, hshown⟩ := hreplay now
    exact ⟨shown, Instruction.play_mono hdelta (hpack ▸ hshows.play_pack), hshown⟩

section Placed

variable {scripts : List Script} {mode : Mode} {placements : List Placement}
  {addresses : List UInt16}

theorem length_tables (hs : Recorded objects settings s) (scripts : List Script) :
    (s.finish.blocks scripts).tables.length = settings.attributes.length :=
  (Reel.length_tables_blocks scripts).trans (congrArg List.length hs.attributes_eq)

/-- **The player knows the deltas of the ranking.** -/
theorem delta_playerOf (hs : Recorded objects settings s) (hvalid : settings.IsValid)
    (hplace : Layout.place (s.finish.blocks scripts) mode = .ok (placements, addresses))
    (hsteps : s.tracks.maxSteps ≤ 0xFFFF) (m : Memory) {index : ℕ} {change : Delta}
    (h : s.finish.ranking.delta? index = some change) :
    (Layout.playerOf (s.finish.blocks scripts) placements addresses m).delta index = change := by
  have htables := hs.length_tables scripts
  obtain ⟨hwidth, hrange⟩ := hs.delta_bounds hvalid h
  refine Player.delta_eq ?_ h (hwidth.trans htables.symm) (fun a ha => hrange a (htables ▸ ha))
  intro a ha
  have htable := Layout.bytes_tablePosition hplace hsteps m ha
  rw [Reel.tableBytes_blocks (Reel.length_tables_blocks scripts ▸ ha)] at htable
  simpa [Ranking.table, Ranking.size] using htable

/-- **The player finds a script for every object, and it shows a replay.** -/
theorem instructions_playerOf (hs : Recorded objects settings s) (hvalid : settings.IsValid)
    (hword : ∀ a ∈ settings.attributes, a.HasWordModulo)
    (hscripts : s.finish.scripts s.finish.onScreen = .ok scripts)
    (hplace : Layout.place (s.finish.blocks scripts) mode = .ok (placements, addresses))
    (hsteps : s.tracks.maxSteps ≤ 0xFFFF) (m : Memory) {object : ℕ} (hobject : object < objects) :
    ∃ body, (Layout.playerOf (s.finish.blocks scripts) placements addresses m).instructions object
        = some (body ++ [.finish])
      ∧ Instruction.finish ∉ body
      ∧ ∀ now, ∃ shown, Instruction.play
          (some ∘ (Layout.playerOf (s.finish.blocks scripts) placements addresses m).delta) now
          (body ++ [.finish]) = some shown
        ∧ IsReplay settings s.finish.onScreen object (s.tracks.steps object) shown := by
  have htables : 0 < (s.finish.blocks scripts).tables.length :=
    hs.length_tables scripts ▸ hvalid.attributes_pos
  have htracked : object < s.finish.tracks.objects := hs.objects_eq.symm ▸ hobject
  obtain ⟨script, hget, hscript⟩ := Reel.script_of_scripts hscripts htracked
  have hlt : object < (s.finish.blocks scripts).scripts.length :=
    (List.getElem?_eq_some_iff.mp hget).1
  have hbytes : (s.finish.blocks scripts).scriptBytes object = script.bytes :=
    Reel.scriptBytes_blocks hget
  have hread := Layout.bytes_scriptPosition hplace htables hsteps m hlt
  have hspace := Layout.scriptPosition_add_le hplace htables hsteps m hlt
    (hbytes ▸ Direction.length_bytes_pos hscript)
  rw [hbytes] at hread hspace
  refine hs.replays_of_bytes hvalid hword hscript hread hspace ?_
  intro index change h
  rw [Function.comp_apply, hs.delta_playerOf hvalid hplace hsteps m h]

end Placed

end Session.Recorded

/-- **Playing a build replays the recording of every object**, whatever was in memory before and
whatever the mode (the ends of its bins are machine words). -/
theorem Session.play_build {objects : ℕ} {settings : Settings} {start session : Session}
    {frames : List (ℕ × Values)} (hstart : Session.start objects settings = .ok start)
    (hrecord : start.recordAll frames = .ok session)
    (hword : ∀ a ∈ settings.attributes, a.HasWordModulo) {mode : Mode} {build : Build}
    (hbuild : session.finish.build mode = .ok build) (m : Memory) :
    ∃ player, build.layout.player m objects settings.attributes.length = some player
      ∧ player.stepCount = session.tracks.maxSteps
      ∧ (0 < objects → ∃ object < objects,
          (session.tracks.steps object).length = player.stepCount)
      ∧ ∀ object < objects,
          (session.tracks.steps object).map Step.state
            = (frames.filter (·.1 = object)).map Prod.snd
          ∧ ∃ body, player.instructions object = some (body ++ [.finish])
            ∧ Instruction.finish ∉ body
            ∧ ∀ now, ∃ shown,
              Instruction.play (some ∘ player.delta) now (body ++ [.finish]) = some shown
                ∧ shown.length ≤ player.stepCount
                ∧ IsReplay settings session.finish.onScreen object (session.tracks.steps object)
                    shown := by
  have hvalid := (start_eq_ok_iff.mp hstart).1
  have hs := recorded_of_recordAll hstart hrecord
  obtain ⟨scripts, layout, hscripts, hlayout, rfl⟩ := Reel.build_eq_ok_iff.mp hbuild
  obtain ⟨hsteps, placements, addresses, hplace, rfl⟩ := Layout.allocate_eq_ok_iff.mp hlayout
  have hobjects : scripts.length = objects := (Reel.length_scripts hscripts).trans hs.objects_eq
  have htables := hs.length_tables scripts
  have hpos : 0 < (session.finish.blocks scripts).tables.length := htables ▸ hvalid.attributes_pos
  have hstepCount :
      (Layout.playerOf (session.finish.blocks scripts) placements addresses m).stepCount
        = session.tracks.maxSteps :=
    Player.stepCount_eq (Layout.hasHeader_playerOf hplace hpos hsteps m)
  refine ⟨Layout.playerOf (session.finish.blocks scripts) placements addresses m, ?_, hstepCount,
    ?_, ?_⟩
  · rw [← htables, ← hobjects]
    exact Layout.player_ofPlacements hplace hpos m
  · intro hsome
    obtain ⟨object, hobject, hlongest⟩ := session.tracks.exists_longest (hs.objects_eq ▸ hsome)
    exact ⟨object, hs.objects_eq ▸ hobject, hlongest.trans hstepCount.symm⟩
  · intro object hobject
    obtain ⟨body, hbody, hend, hplay⟩ :=
      hs.instructions_playerOf hvalid hword hscripts hplace hsteps m hobject
    refine ⟨states_of_recordAll hstart hrecord object, body, hbody, hend, ?_⟩
    intro now
    obtain ⟨shown, hshown, hreplay⟩ := hplay now
    refine ⟨shown, hshown, ?_, hreplay⟩
    rw [hreplay.length_eq, hstepCount]
    exact session.tracks.length_steps_le object

/-! ## The walker in memory

The walker that turns goes over three bins; the first of them ends with the address space.
-/

/-- The bins for the walker. -/
def Bin.turning : List Bin :=
  [.mk 0xFFF5 11, .mk 0x1000 10, .mk 0x2000 9]

/-- What the walker becomes. -/
def Build.turning : Build where
  reel := Session.afterTurning.finish
  scripts := [⟨0, [192, 0, 0, 252, 5, 7, 1, 129, 128]⟩]
  layout := {
    placements := [⟨.header, 0xFFF5, 8, 0⟩, ⟨.table 0, 0xFFFD, 3, 0⟩, ⟨.table 1, 0x1000, 3, 1⟩,
      ⟨.table 2, 0x1003, 3, 1⟩, ⟨.script 0, 0x2000, 9, 2⟩]
    segments := [⟨0xFFF5, [0, 0x20, 0, 0x10, 3, 0x10, 4, 0, 6, 1, 0]⟩,
      ⟨0x1000, [7, 0, 0, 0, 3, 0]⟩, ⟨0x2000, [192, 0, 0, 252, 5, 7, 1, 129, 128]⟩]
    summary := ⟨1, 4, 3, 8, 9, 9⟩ }

/-- The walker is played from a memory that was full of `255`. -/
theorem Session.play_build_turning :
    Session.start 1 Settings.turning = .ok beforeTurning
      ∧ beforeTurning.recordAll turningFrames = .ok afterTurning
      ∧ afterTurning.finish.build (.chunked Bin.turning) = .ok Build.turning
      ∧ ∃ player, Build.turning.layout.player (fun _ => 255) 1 3 = some player
        ∧ player.stepCount = 4
        ∧ ∀ object < 1, ∃ body shown, player.instructions object = some (body ++ [.finish])
          ∧ Instruction.play (some ∘ player.delta) [0, 0, 0] (body ++ [.finish]) = some shown
          ∧ IsReplay Settings.turning afterTurning.finish.onScreen object
              (afterTurning.tracks.steps object) shown := by
  have hstart : Session.start 1 Settings.turning = .ok beforeTurning := by rfl
  have hrecord : beforeTurning.recordAll turningFrames = .ok afterTurning := by rfl
  have hbuild : afterTurning.finish.build (.chunked Bin.turning) = .ok Build.turning := by cbv
  obtain ⟨player, hplayer, hsteps, -, hobjects⟩ :=
    play_build hstart hrecord Settings.hasWordModulo_turning hbuild fun _ => 255
  refine ⟨hstart, hrecord, hbuild, player, hplayer, hsteps.trans (by rfl), fun object h => ?_⟩
  obtain ⟨-, body, hbody, -, hplay⟩ := hobjects object h
  obtain ⟨shown, hshown, -, hreplay⟩ := hplay [0, 0, 0]
  exact ⟨body, shown, hbody, hshown, hreplay⟩

end DeltaScript
