import DeltaScript.Proofs.Build
import DeltaScript.Proofs.Emission
import DeltaScript.Proofs.Recording
import DeltaScript.Proofs.Refusals
import DeltaScript.Proofs.Settings

/-!
# The first stage that fails decides

A compilation has six stages.  What each of them asks for is said without running the stages behind
it, and what it tells if it does not get it names the code and, where there is one, the object.

Two limits are set by the machine and not by a stage: the ends of the bins are machine words
(`Bin.stop_le`), and there is memory for the tracks of all objects that are asked for
(`Tracks.ofCount`).

* `Stage`, `Stage.earlier` — the stages and their order.
* `Request` — what is compiled.  `Request.Takes` — the recording and the session that come of it.
* `Stage.Holds` — what a stage asks for.
* `Stage.Reports` — what a stage tells.
* `Request.decided` — **a compilation succeeds exactly if all stages hold, and fails as the first
  that does not.**
-/

namespace DeltaScript

/-- What is compiled. -/
structure Request where
  source : String
  /-- The number of objects, if one is given. -/
  objects : Option ℕ
  settings : Settings
  mode : Mode

/-- The stages of a compilation. -/
inductive Stage
  | text
  | settings
  | frames
  | scripts
  | length
  | placement
  deriving DecidableEq, Repr

/-- The stages before a stage. -/
def Stage.earlier : Stage → List Stage
  | text => []
  | settings => [text]
  | frames => [text, settings]
  | scripts => [text, settings, frames]
  | length => [text, settings, frames, scripts]
  | placement => [text, settings, frames, scripts, length]

namespace Request

/-- Compiles what is asked for. -/
def compile (r : Request) : Except Failure Build :=
  DeltaScript.compile r.source r.objects r.settings r.mode

/-- The text is a recording. -/
def Reads (r : Request) (recording : Recording) : Prop :=
  Recording.parse r.source = .ok recording

/-- The number of objects: the one that is given, or else the one that the recording speaks of. -/
def count (r : Request) (recording : Recording) : ℕ :=
  r.objects.getD recording.objects

/-- The text is a recording that is taken down in a session. -/
def Takes (r : Request) (recording : Recording) (session : Session) : Prop :=
  r.Reads recording ∧ recording.session r.objects r.settings = .ok session

/-- The object can be compiled from a session. -/
def Plays (session : Session) (object : ℕ) : Prop :=
  (session.finish.direction session.finish.onScreen).Playable object (session.tracks.steps object)

end Request

/-- What a stage asks for. -/
def Stage.Holds (r : Request) : Stage → Prop
  | text => ∃ recording, r.Reads recording
  | settings => r.settings.IsValid
  | frames => ∀ recording, r.Reads recording → ∀ f ∈ recording.frames,
      f.object < r.count recording ∧ f.state.length = r.settings.attributes.length
  | scripts => ∀ recording session, r.Takes recording session →
      ∀ object < r.count recording, Request.Plays session object
  | length => ∀ recording, r.Reads recording → ∀ object < r.count recording,
      (recording.frames.filter (·.object = object)).length ≤ 0xFFFF
  | placement => ∀ recording session scripts, r.Takes recording session →
      session.finish.scripts session.finish.onScreen = .ok scripts →
      r.mode.Fits (session.finish.blocks scripts)

/-- What a stage tells if it does not get what it asks for. -/
def Stage.Reports (r : Request) (e : Failure) : Stage → Prop
  | text => e.code = .recording
  | settings => e.code = .settings
  | frames => ∃ recording before f after, r.Reads recording
      ∧ recording.frames = before ++ f :: after
      -- all frames before are in order
      ∧ (∀ b ∈ before, b.object < r.count recording
        ∧ b.state.length = r.settings.attributes.length)
      -- the object is looked at before the number of values
      ∧ ((r.count recording ≤ f.object ∧ e = .unknownObject f.object (r.count recording))
        ∨ (f.object < r.count recording ∧ f.state.length ≠ r.settings.attributes.length
          ∧ e = .valueCount f.object r.settings.attributes.length f.state.length))
  | scripts => ∃ recording session object, r.Takes recording session
      ∧ object < r.count recording
      -- all objects before can be compiled
      ∧ (∀ o < object, Request.Plays session o) ∧ ¬ Request.Plays session object
      ∧ e.diagnostic.object = some object
      ∧ ((e.code = .neverVisible ∧ ∀ f ∈ recording.frames, f.object = object →
          r.settings.screen.shows object f.state = false)
        ∨ (e.code = .fieldRange ∧ ∃ f ∈ recording.frames, f.object = object
          ∧ r.settings.screen.shows object f.state = true))
  | length => e.code = .tooManySteps
  | placement =>
      match r.mode with
      | .contiguous _ => e.code = .pastEnd
      | .chunked bins => (¬ Bin.Usable bins ∧ e.code = .bins ∧ Bin.IsFault e)
          ∨ (Bin.Usable bins ∧ e.code = .noRoom)

namespace Request

variable {r : Request} {recording : Recording} {session : Session} {scripts : List Script}

/-! ## The recording and the session -/

theorem Reads.unique {recording' : Recording} (h : r.Reads recording) (h' : r.Reads recording') :
    recording = recording' :=
  Except.ok.inj (h.symm.trans h')

theorem Takes.unique {recording' : Recording} {session' : Session} (h : r.Takes recording session)
    (h' : r.Takes recording' session') : recording = recording' ∧ session = session' := by
  obtain rfl := h.1.unique h'.1
  exact ⟨rfl, Except.ok.inj (h.2.symm.trans h'.2)⟩

/-- The frames of a recording as they are taken down. -/
def framesOf (recording : Recording) : List (ℕ × Values) :=
  recording.frames.map fun f => (f.object, f.state)

theorem session_eq_ok_iff : recording.session r.objects r.settings = .ok session ↔
    ∃ start, Session.start (r.count recording) r.settings = .ok start
      ∧ start.recordAll (framesOf recording) = .ok session :=
  bind_eq_ok_iff

theorem Takes.recorded (h : r.Takes recording session) :
    Session.Recorded (r.count recording) r.settings session := by
  obtain ⟨start, hstart, hrecord⟩ := session_eq_ok_iff.mp h.2
  exact Session.recorded_of_recordAll hstart hrecord

theorem Takes.states (h : r.Takes recording session) (object : ℕ) :
    (session.tracks.steps object).map Step.state
      = (recording.frames.filter (·.object = object)).map Frame.state := by
  obtain ⟨start, hstart, hrecord⟩ := session_eq_ok_iff.mp h.2
  rw [Session.states_of_recordAll hstart hrecord object, framesOf, List.filter_map, List.map_map]
  rfl

/-- What holds of the values of all steps of an object holds of those of all its frames. -/
theorem Takes.forall_steps_iff (h : r.Takes recording session) (object : ℕ) (P : Values → Prop) :
    (∀ step ∈ session.tracks.steps object, P step.state) ↔
      ∀ f ∈ recording.frames, f.object = object → P f.state := by
  have hmem : ∀ values, values ∈ (session.tracks.steps object).map Step.state ↔
      ∃ f ∈ recording.frames, f.object = object ∧ f.state = values := by
    intro values
    rw [h.states object, List.mem_map]
    simp only [List.mem_filter, decide_eq_true_eq, and_assoc]
  constructor
  · intro hall f hf hobject
    obtain ⟨step, hstep, hstate⟩ := List.mem_map.mp ((hmem f.state).mpr ⟨f, hf, hobject, rfl⟩)
    exact hstate ▸ hall step hstep
  · intro hall step hstep
    obtain ⟨f, hf, hobject, hstate⟩ := (hmem step.state).mp (List.mem_map_of_mem hstep)
    exact hstate ▸ hall f hf hobject

/-! ## What the stages ask for, once the recording and the session are known -/

theorem holds_frames_iff (h : r.Reads recording) : Stage.frames.Holds r ↔
    ∀ frame ∈ framesOf recording, Session.Accepts (r.count recording) r.settings frame := by
  simp only [framesOf, List.forall_mem_map]
  constructor
  · exact fun hframes f hf => hframes recording h f hf
  · intro hframes recording' h' f hf
    obtain rfl := h.unique h'
    exact hframes f hf

theorem session_eq (hvalid : r.settings.IsValid) (recording : Recording) :
    recording.session r.objects r.settings
      = Session.recordAll
          { settings := r.settings
            tracks := Tracks.ofCount (r.count recording) r.settings.attributes }
          (framesOf recording) := by
  have hstart : Session.start (r.count recording) r.settings = .ok _ :=
    Session.start_eq_ok_iff.mpr ⟨hvalid, rfl⟩
  change (Session.start (r.count recording) r.settings >>= _) = _
  rw [hstart]
  rfl

theorem exists_takes_iff (hvalid : r.settings.IsValid) (h : r.Reads recording) :
    (∃ session, r.Takes recording session) ↔ Stage.frames.Holds r := by
  rw [holds_frames_iff h, ← (Session.recorded_fresh _ _).exists_recordAll_iff,
    ← session_eq hvalid recording]
  exact exists_congr fun session => and_iff_right h

theorem plays_iff (session : Session) (object : ℕ) : Plays session object ↔
    ∃ script, session.finish.script session.finish.onScreen object = .ok script :=
  (Direction.exists_compile_iff fun _ _ h => Ranking.index?_lt_capacity h).symm

theorem holds_scripts_iff (h : r.Takes recording session) : Stage.scripts.Holds r ↔
    ∃ scripts, session.finish.scripts session.finish.onScreen = .ok scripts := by
  have hobjects : session.finish.tracks.objects = r.count recording := h.recorded.objects_eq
  rw [Reel.exists_scripts_iff, hobjects]
  simp only [← plays_iff]
  constructor
  · exact fun hscripts => hscripts recording session h
  · intro hscripts recording' session' h'
    obtain ⟨rfl, rfl⟩ := h.unique h'
    exact hscripts

theorem holds_length_iff (h : r.Takes recording session) :
    Stage.length.Holds r ↔ session.tracks.maxSteps ≤ 0xFFFF := by
  have hlength : ∀ object, (recording.frames.filter (·.object = object)).length
      = (session.tracks.steps object).length := by
    intro object
    simpa using (congrArg List.length (h.states object)).symm
  constructor
  · intro hle
    rcases Nat.eq_zero_or_pos session.tracks.objects with hzero | hpos
    · have hnone : session.tracks.tracks = [] := List.eq_nil_of_length_eq_zero hzero
      simp [Tracks.maxSteps, hnone]
    · obtain ⟨object, hobject, hlongest⟩ := session.tracks.exists_longest hpos
      rw [h.recorded.objects_eq] at hobject
      rw [← hlongest, ← hlength]
      exact hle recording h.1 object hobject
  · intro hle recording' h' object _
    obtain rfl := h.1.unique h'
    rw [hlength]
    exact le_trans (session.tracks.length_steps_le object) hle

theorem holds_placement_iff (h : r.Takes recording session)
    (hscripts : session.finish.scripts session.finish.onScreen = .ok scripts) :
    Stage.placement.Holds r ↔ r.mode.Fits (session.finish.blocks scripts) := by
  constructor
  · exact fun hfits => hfits recording session scripts h hscripts
  · intro hfits recording' session' scripts' h' hscripts'
    obtain ⟨rfl, rfl⟩ := h.unique h'
    obtain rfl := Except.ok.inj (hscripts.symm.trans hscripts')
    exact hfits

/-! ## Success -/

theorem compile_eq_ok_iff {build : Build} : r.compile = .ok build ↔
    ∃ recording session, r.Takes recording session ∧ session.finish.build r.mode = .ok build := by
  rw [compile, DeltaScript.compile, bind_eq_ok_iff]
  constructor
  · rintro ⟨recording, hreads, h⟩
    obtain ⟨session, hsession, hbuild⟩ := bind_eq_ok_iff.mp h
    exact ⟨recording, session, ⟨hreads, hsession⟩, hbuild⟩
  · rintro ⟨recording, session, ⟨hreads, hsession⟩, hbuild⟩
    exact ⟨recording, hreads, bind_eq_ok_iff.mpr ⟨session, hsession, hbuild⟩⟩

theorem exists_build_iff (h : r.Takes recording session) :
    (∃ build, session.finish.build r.mode = .ok build) ↔
      Stage.scripts.Holds r ∧ Stage.length.Holds r ∧ Stage.placement.Holds r := by
  rw [holds_scripts_iff h, holds_length_iff h]
  simp only [Reel.build_eq_ok_iff, Layout.allocate_eq_ok_iff]
  constructor
  · rintro ⟨_, scripts, _, hscripts, ⟨hsteps, placements, addresses, hplace, -⟩, -⟩
    exact ⟨⟨scripts, hscripts⟩, hsteps,
      (holds_placement_iff h hscripts).mpr (Layout.exists_place_iff.mp ⟨_, hplace⟩)⟩
  · rintro ⟨⟨scripts, hscripts⟩, hsteps, hplacement⟩
    obtain ⟨⟨placements, addresses⟩, hplace⟩ :=
      Layout.exists_place_iff.mpr ((holds_placement_iff h hscripts).mp hplacement)
    exact ⟨_, scripts, _, hscripts, ⟨hsteps, placements, addresses, hplace, rfl⟩, rfl⟩

/-- **A compilation succeeds exactly if all stages hold.** -/
theorem exists_compile_iff : (∃ build, r.compile = .ok build) ↔ ∀ stage : Stage, stage.Holds r := by
  constructor
  · rintro ⟨build, hcompile⟩
    obtain ⟨recording, session, htakes, hbuild⟩ := compile_eq_ok_iff.mp hcompile
    obtain ⟨start, hstart, -⟩ := session_eq_ok_iff.mp htakes.2
    have hvalid := (Session.start_eq_ok_iff.mp hstart).1
    obtain ⟨hscripts, hlength, hplacement⟩ := (exists_build_iff htakes).mp ⟨build, hbuild⟩
    intro stage
    cases stage with
    | text => exact ⟨recording, htakes.1⟩
    | settings => exact hvalid
    | frames => exact (exists_takes_iff hvalid htakes.1).mp ⟨session, htakes⟩
    | scripts => exact hscripts
    | length => exact hlength
    | placement => exact hplacement
  · intro hall
    obtain ⟨recording, hreads⟩ := hall .text
    obtain ⟨session, htakes⟩ := (exists_takes_iff (hall .settings) hreads).mpr (hall .frames)
    obtain ⟨build, hbuild⟩ :=
      (exists_build_iff htakes).mpr ⟨hall .scripts, hall .length, hall .placement⟩
    exact ⟨build, compile_eq_ok_iff.mpr ⟨recording, session, htakes, hbuild⟩⟩

/-! ## Failure -/

/-- A stage does not hold, and all stages before it do. -/
def FailsFirst (r : Request) (stage : Stage) : Prop :=
  ¬ stage.Holds r ∧ ∀ earlier ∈ stage.earlier, earlier.Holds r

/-- **Refused frames are reported by the third stage.** -/
theorem reports_frames {e : Failure} (hvalid : r.settings.IsValid) (h : r.Reads recording)
    (he : recording.session r.objects r.settings = .error e) :
    ¬ Stage.frames.Holds r ∧ Stage.frames.Reports r e := by
  constructor
  · intro hframes
    obtain ⟨session, htakes⟩ := (exists_takes_iff hvalid h).mpr hframes
    rw [htakes.2] at he
    cases he
  · rw [session_eq hvalid] at he
    obtain ⟨before, frame, after, hframes, hbefore, hrefuses⟩ :=
      (Session.recorded_fresh _ _).recordAll_eq_error_iff.mp he
    obtain ⟨before, rest, hsplit, rfl, hrest⟩ := List.map_eq_append_iff.mp hframes
    obtain ⟨f, after, rfl, rfl, rfl⟩ := List.map_eq_cons_iff.mp hrest
    exact ⟨recording, before, f, after, h, hsplit, List.forall_mem_map.mp hbefore, hrefuses⟩

/-- **The first object without a script is reported by the fourth stage.** -/
theorem reports_scripts {e : Failure} (h : r.Takes recording session)
    (he : session.finish.scripts session.finish.onScreen = .error e) :
    ¬ Stage.scripts.Holds r ∧ Stage.scripts.Reports r e := by
  constructor
  · intro hscripts
    obtain ⟨scripts, hok⟩ := (holds_scripts_iff h).mp hscripts
    rw [hok] at he
    cases he
  · have hobjects : session.finish.tracks.objects = r.count recording := h.recorded.objects_eq
    have hscreen : session.finish.onScreen = r.settings.screen.shows := by
      rw [Reel.onScreen, Session.finish, h.recorded.settings_eq]
    obtain ⟨object, hobject, hbefore, hrefused⟩ := Reel.scripts_eq_error_iff.mp he
    have hnot : ¬ Plays session object := by
      rw [plays_iff, hrefused]
      rintro ⟨script, hscript⟩
      cases hscript
    have hhidden : (¬ ∃ f, Direction.FirstSeen session.finish.onScreen object
        (session.tracks.steps object) f) ↔ ∀ f ∈ recording.frames, f.object = object →
          r.settings.screen.shows object f.state = false := by
      rw [Direction.not_exists_firstSeen_iff, hscreen]
      exact h.forall_steps_iff object fun values => r.settings.screen.shows object values = false
    refine ⟨recording, session, object, h, hobjects ▸ hobject,
      fun o ho => (plays_iff session o).mpr (hbefore o ho), hnot, ?_⟩
    rcases Direction.refusal_of_compile (fun _ _ h => Ranking.index?_lt_capacity h) hrefused with
      ⟨hnever, rfl⟩ | ⟨hseen, field, value, rfl⟩
    · exact ⟨rfl, Or.inl ⟨rfl, hhidden.mp hnever⟩⟩
    · refine ⟨rfl, Or.inr ⟨rfl, ?_⟩⟩
      by_contra hnone
      refine hhidden.mpr (fun f hf hobject => ?_) hseen
      by_contra hshown
      exact hnone ⟨f, hf, hobject, by simpa using hshown⟩

/-- **A refused allocation is reported by one of the last two stages.** -/
theorem reports_allocate {e : Failure} (h : r.Takes recording session)
    (hscripts : session.finish.scripts session.finish.onScreen = .ok scripts)
    (he : Layout.allocate (session.finish.blocks scripts) r.mode = .error e) :
    (¬ Stage.length.Holds r ∧ Stage.length.Reports r e)
      ∨ (Stage.length.Holds r ∧ ¬ Stage.placement.Holds r ∧ Stage.placement.Reports r e) := by
  rw [holds_length_iff h, holds_placement_iff h hscripts]
  rcases Layout.refusal_of_allocate he with ⟨hsteps, rfl⟩ | ⟨hsteps, hfits, hrefuses⟩
  · exact Or.inl ⟨not_le.mpr hsteps, rfl⟩
  · refine Or.inr ⟨hsteps, hfits, ?_⟩
    rw [Stage.Reports]
    cases hmode : r.mode with
    | contiguous base =>
        rw [hmode] at hrefuses
        obtain rfl : e = _ := hrefuses
        rfl
    | chunked bins =>
        rw [hmode] at hrefuses
        rcases hrefuses with ⟨hbins, hfault⟩ | ⟨hbins, block, -, free, rfl⟩
        · exact Or.inl ⟨hbins, hfault.code_eq, hfault⟩
        · exact Or.inr ⟨hbins, rfl⟩

/-- **A fault of the settings is reported by the second stage.** -/
theorem reports_settings {e : Failure} (hvalid : ¬ r.settings.IsValid)
    (he : recording.session r.objects r.settings = .error e) : Stage.settings.Reports r e := by
  rcases bind_eq_error_iff.mp he with he | ⟨start, hstart, -⟩
  · exact Settings.code_of_check (Session.start_eq_error_iff.mp he)
  · exact absurd (Session.start_eq_ok_iff.mp hstart).1 hvalid

/-- **A compilation fails as the first stage that does not hold.** -/
theorem reports_of_compile {e : Failure} (he : r.compile = .error e) :
    ∃ stage, r.FailsFirst stage ∧ stage.Reports r e := by
  rcases bind_eq_error_iff.mp he with hparse | ⟨recording, hreads, he⟩
  · refine ⟨.text, ⟨?_, by simp [Stage.earlier]⟩, Recording.code_of_parse hparse⟩
    rintro ⟨recording, hreads⟩
    cases hparse.symm.trans hreads
  have htext : Stage.text.Holds r := ⟨recording, hreads⟩
  rcases bind_eq_error_iff.mp he with hsession | ⟨session, hsession, hbuild⟩
  · by_cases hvalid : Stage.settings.Holds r
    · obtain ⟨hfails, hreports⟩ := reports_frames hvalid hreads hsession
      exact ⟨.frames, ⟨hfails, by simp [Stage.earlier, htext, hvalid]⟩, hreports⟩
    · exact ⟨.settings, ⟨hvalid, by simp [Stage.earlier, htext]⟩, reports_settings hvalid hsession⟩
  have htakes : r.Takes recording session := ⟨hreads, hsession⟩
  have hvalid : Stage.settings.Holds r := by
    obtain ⟨start, hstart, -⟩ := session_eq_ok_iff.mp hsession
    exact (Session.start_eq_ok_iff.mp hstart).1
  have hframes := (exists_takes_iff hvalid hreads).mp ⟨session, htakes⟩
  rcases bind_eq_error_iff.mp hbuild with hrefused | ⟨scripts, hscripts, hallocate⟩
  · obtain ⟨hfails, hreports⟩ := reports_scripts htakes hrefused
    exact ⟨.scripts, ⟨hfails, by simp [Stage.earlier, htext, hvalid, hframes]⟩, hreports⟩
  have hplays := (holds_scripts_iff htakes).mpr ⟨scripts, hscripts⟩
  rcases bind_eq_error_iff.mp hallocate with hallocate | ⟨_, _, hdone⟩
  · rcases reports_allocate htakes hscripts hallocate with
      ⟨hfails, hreports⟩ | ⟨hlength, hfails, hreports⟩
    · exact ⟨.length, ⟨hfails, by simp [Stage.earlier, htext, hvalid, hframes, hplays]⟩, hreports⟩
    · exact ⟨.placement,
        ⟨hfails, by simp [Stage.earlier, htext, hvalid, hframes, hplays, hlength]⟩, hreports⟩
  · cases hdone

/-- **Some failures are not reported by any stage**: an index is never too large, no block is left
without an address, and the objects that a recording speaks of are all tracked. -/
theorem never_of_reports {e : Failure} {stage : Stage} (h : stage.Reports r e) :
    (r.objects = none → e.code ≠ .unknownObject) ∧ e.code ≠ .deltaIndex
      ∧ ∀ block, e ≠ .unplaced block := by
  have hcode : ∀ {code : Code}, e.code = code → code ≠ .unknownObject → code ≠ .deltaIndex →
      code ≠ .bins → (r.objects = none → e.code ≠ .unknownObject) ∧ e.code ≠ .deltaIndex
        ∧ ∀ block, e ≠ .unplaced block := by
    rintro code rfl hobject hindex hbins
    refine ⟨fun _ => hobject, hindex, ?_⟩
    rintro block rfl
    exact hbins rfl
  cases stage with
  | text => exact hcode h (by decide) (by decide) (by decide)
  | settings => exact hcode h (by decide) (by decide) (by decide)
  | frames =>
      obtain ⟨recording, before, f, after, -, hframes, -, ⟨hobject, rfl⟩ | ⟨-, -, rfl⟩⟩ := h
      · refine ⟨fun hnone => ?_, (nomatch ·), fun _ => (nomatch ·)⟩
        have hlt : f.object < recording.objects := Recording.object_lt_objects (by simp [hframes])
        rw [count, hnone, Option.getD_none] at hobject
        omega
      · exact @hcode .valueCount rfl (by decide) (by decide) (by decide)
  | scripts =>
      obtain ⟨_, _, _, -, -, -, -, -, ⟨h, -⟩ | ⟨h, -⟩⟩ := h
      · exact hcode h (by decide) (by decide) (by decide)
      · exact hcode h (by decide) (by decide) (by decide)
  | length => exact hcode h (by decide) (by decide) (by decide)
  | placement =>
      rw [Stage.Reports] at h
      cases hmode : r.mode with
      | contiguous base =>
          rw [hmode] at h
          exact hcode h (by decide) (by decide) (by decide)
      | chunked bins =>
          rw [hmode] at h
          rcases h with ⟨-, h, hfault⟩ | ⟨-, h⟩
          · refine ⟨fun _ => by simp [h], by simp [h], ?_⟩
            rintro block rfl
            exact hfault
          · exact hcode h (by decide) (by decide) (by decide)

/-- **A compilation is decided by its stages**: it succeeds exactly if all of them hold, and fails
as the first that does not, whatever the mode of the request (the ends of its bins are machine words)
and the number of its objects (there is memory for their tracks). -/
theorem decided (r : Request) :
    ((∃ build, r.compile = .ok build) ↔ ∀ stage : Stage, stage.Holds r)
      ∧ ∀ e, r.compile = .error e →
        (∃ stage, r.FailsFirst stage ∧ stage.Reports r e)
          ∧ (r.objects = none → e.code ≠ .unknownObject) ∧ e.code ≠ .deltaIndex
          ∧ ∀ block, e ≠ .unplaced block := by
  refine ⟨exists_compile_iff, fun e he => ?_⟩
  obtain ⟨stage, hfails, hreports⟩ := reports_of_compile he
  exact ⟨⟨stage, hfails, hreports⟩, never_of_reports hreports⟩

end Request

end DeltaScript
