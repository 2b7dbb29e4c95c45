import DeltaScript.Reel
import DeltaScript.Proofs.Circle
import DeltaScript.Proofs.Direction
import DeltaScript.Proofs.Session

/-!
# Playing a script replays the recording

A script holds states, deltas and holds, and a player knows nothing else.  What it shows is the
recording, up to what the encoding cannot keep.

* `Attribute.Replays` — how a played value of an attribute relates to the recorded one.
* `IsReplay` — shown frames are those of an object: as many, parked while it is not seen, replayed
  from then on.
* `Agrees` — the invariant of a player: **each of its values is the recorded one, up to multiples of
  a number that belongs to the attribute.**  Multiples of `0` are only `0`, so exact replay is a
  case of it.
* `Direction.Follows` — what a direction has to satisfy for deltas to keep the invariant, and
  `Session.Recorded.follows`: the direction of a finished session does.
* `Direction.Follows.shows` — all cues of an object keep it, in whatever order they come.
* `Session.Recorded.isReplay` — hence what a script shows is a replay.
-/

namespace DeltaScript

/-! ## What is kept of a value -/

/-- How a played value of an attribute relates to the recorded one.  Strictly, nothing is lost but
whole turns of a circle; otherwise multiples of the width of the field are lost as well. -/
def Attribute.Replays (a : Attribute) (overflow : Overflow) (field : Field)
    (played recorded : ℤ) : Prop :=
  match overflow, a.modulo with
  | .strict, none => played = recorded
  | .strict, some m => played ≡ recorded [ZMOD m]
  | .wrap, none => played ≡ recorded [ZMOD field.width]
  | .wrap, some m => played ≡ recorded [ZMOD Int.gcd m field.width]

/-- What a player shows of an object whose steps were recorded. -/
structure IsReplay (settings : Settings) (visibility : Visibility) (object : ℕ)
    (steps : List Step) (shown : List Values) : Prop where
  /-- One frame is shown for each step. -/
  length_eq : shown.length = steps.length
  /-- The object is seen in one of its frames. -/
  seen : ∃ f, Direction.FirstSeen visibility object steps f
  /-- Before that it is parked. -/
  parked : ∀ f, Direction.FirstSeen visibility object steps f → ∀ k < f, ∃ x y angle,
    Instruction.ofValues settings.overflow none settings.sentinel = .ok (.state x y angle)
      ∧ shown[k]? = some [(x.toNat : ℤ), (y.toNat : ℤ), (angle.toNat : ℤ)]
  /-- From then on every attribute is replayed. -/
  replayed : ∀ f, Direction.FirstSeen visibility object steps f →
    ∀ k step, f ≤ k → steps[k]? = some step → ∃ frame, shown[k]? = some frame
      ∧ ∀ (a : ℕ) (attr : Attribute), settings.attributes[a]? = some attr →
        ∃ played recorded, frame[a]? = some played ∧ step.state[a]? = some recorded
          ∧ attr.Replays settings.overflow (Field.ofIndex a) played recorded
  /-- Without circles, values that fit are replayed as they are. -/
  exact : settings.overflow = .wrap → (∀ a ∈ settings.attributes, a.modulo = none) →
    (∀ s ∈ steps, Instruction.Fits s.state) →
    ∀ f, Direction.FirstSeen visibility object steps f →
      ∀ k step, f ≤ k → steps[k]? = some step → ∃ frame, shown[k]? = some frame
        ∧ frame.take settings.attributes.length = step.state

/-! ## The invariant of a player -/

/-- The shown values are the recorded ones, each up to multiples of a number. -/
structure Agrees (q : ℕ → ℤ) (shown recorded : Values) : Prop where
  length_eq : shown.length = 3
  modEq : ∀ a < recorded.length, shown.getD a 0 ≡ recorded.getD a 0 [ZMOD q a]

theorem Instruction.length_shift (values : Values) (change : Delta) :
    (shift values change).length = values.length := by
  induction values generalizing change with
  | nil => cases change <;> rfl
  | cons value values ih =>
      cases change with
      | nil => rfl
      | cons d change => simp [shift, ih]

theorem Instruction.getD_shift {values : Values} {change : Delta} {a : ℕ}
    (ha : a < values.length) (hchange : a < change.length) :
    (shift values change).getD a 0 = values.getD a 0 + change.getD a 0 := by
  induction values generalizing change a with
  | nil => cases ha
  | cons value values ih =>
      cases change with
      | nil => cases hchange
      | cons d change =>
          cases a with
          | zero => rfl
          | succ a =>
              exact ih (Nat.lt_of_succ_lt_succ ha) (Nat.lt_of_succ_lt_succ hchange)

/-- What is known of a direction that keeps the invariant. -/
structure Direction.Follows (d : Direction) (attributes : List Attribute) (q : ℕ → ℤ) : Prop where
  attributes_le : attributes.length ≤ 3
  index_lt : ∀ delta index, d.ranking.index? delta = some index → index < 128
  byte : ∀ delta index, d.ranking.index? delta = some index → ∀ a < attributes.length,
    -128 ≤ delta.getD a 0 ∧ delta.getD a 0 ≤ 127
  kept : ∀ a (h : a < attributes.length) (difference : ℤ), -128 ≤ attributes[a].wrap difference →
    attributes[a].wrap difference ≤ 127 →
    attributes[a].wrap difference ≡ difference [ZMOD q a]

section Follows

variable {d : Direction} {attributes : List Attribute} {q : ℕ → ℤ} {object : ℕ}

/-- A recorded delta of bytes leads from the values before it to those behind it. -/
theorem Direction.Follows.deltas_modEq (h : d.Follows attributes q) {current next : Values}
    (hcurrent : current.length = attributes.length) (hnext : next.length = attributes.length)
    {a : ℕ} (ha : a < attributes.length)
    (hlow : -128 ≤ (Attribute.deltas attributes current next).getD a 0)
    (hhigh : (Attribute.deltas attributes current next).getD a 0 ≤ 127) :
    (Attribute.deltas attributes current next).getD a 0
      ≡ next.getD a 0 - current.getD a 0 [ZMOD q a] := by
  rw [Attribute.getD_deltas hcurrent hnext ha] at hlow hhigh ⊢
  exact h.kept a ha _ hlow hhigh

/-- **A hold keeps the invariant**: where nothing changed, the values behind are those before. -/
theorem Direction.Follows.agrees_hold (h : d.Follows attributes q) {now current next : Values}
    (hcurrent : current.length = attributes.length) (hnext : next.length = attributes.length)
    (hnow : Agrees q now current)
    (hstill : (Attribute.deltas attributes current next).all (· == 0) = true) :
    Agrees q now next := by
  refine ⟨hnow.length_eq, fun a ha => ?_⟩
  have ha' : a < attributes.length := by omega
  have hzero : (Attribute.deltas attributes current next).getD a 0 = 0 := by
    rw [List.getD_eq_getElem?_getD]
    cases hd : (Attribute.deltas attributes current next)[a]? with
    | none => rfl
    | some c => simpa using List.all_eq_true.mp hstill c (List.mem_of_getElem? hd)
  have hstep := h.deltas_modEq hcurrent hnext ha' (by omega) (by omega)
  rw [hzero] at hstep
  have hmove := (hnow.modEq a (by omega)).add hstep
  rwa [add_zero, add_sub_cancel] at hmove

/-- **An indexed delta keeps the invariant.** -/
theorem Direction.Follows.agrees_shift (h : d.Follows attributes q) {now current next : Values}
    (hcurrent : current.length = attributes.length) (hnext : next.length = attributes.length)
    (hnow : Agrees q now current) {index : ℕ}
    (hindex : d.ranking.index? (Attribute.deltas attributes current next) = some index) :
    Agrees q (Instruction.shift now (Attribute.deltas attributes current next)) next := by
  refine ⟨by rw [Instruction.length_shift, hnow.length_eq], fun a ha => ?_⟩
  have hle := h.attributes_le
  have hlength : (Attribute.deltas attributes current next).length = attributes.length := by
    simp [Attribute.deltas, hcurrent, hnext]
  have ha' : a < attributes.length := by omega
  obtain ⟨hlow, hhigh⟩ := h.byte _ _ hindex a ha'
  rw [Instruction.getD_shift (by rw [hnow.length_eq]; omega) (by omega)]
  have hmove := (hnow.modEq a (by omega)).add (h.deltas_modEq hcurrent hnext ha' hlow hhigh)
  rwa [add_sub_cancel] at hmove

/-- **The cues of later frames keep the invariant**, by induction on the steps.  Each step is linked
to the one before it, and the player agrees with that one. -/
theorem Direction.Follows.shows_later (h : d.Follows attributes q) {later : List Step}
    {cues : List Cue} (hcues : later.mapM (d.cueFor object) = .ok cues) {last : Step}
    (hlink : (last :: later).IsChain fun s t =>
      t.delta = some (Attribute.deltas attributes s.state t.state))
    (hwidth : ∀ s ∈ last :: later, s.state.length = attributes.length)
    (hstate : ∀ s ∈ later, (d.overflow = .strict → Instruction.Fits s.state) →
      Agrees q (Instruction.fieldsOf s.state) s.state)
    {now : Values} (hnow : Agrees q now last.state) :
    ∃ shown, Cue.Shows d.ranking.delta? now cues shown
      ∧ List.Forall₂ (fun frame s => Agrees q frame s.state) shown later := by
  induction later generalizing last now cues with
  | nil =>
      obtain rfl := List.forall₂_nil_left_iff.mp (mapM_eq_ok_iff.mp hcues)
      exact ⟨[], .done, .nil⟩
  | cons step later ih =>
      obtain ⟨cue, rest, hcue, hrest, rfl⟩ :=
        List.forall₂_cons_left_iff.mp (mapM_eq_ok_iff.mp hcues)
      obtain ⟨hdelta, hlink⟩ := List.isChain_cons_cons.mp hlink
      have hcurrent := hwidth last (by simp)
      have hnext := hwidth step (by simp)
      -- whatever the cue is, the player goes on from a frame that agrees with this step
      have hgo : ∀ {next : Values}, Agrees q next step.state →
          ∃ shown, Cue.Shows d.ranking.delta? next rest shown
            ∧ List.Forall₂ (fun frame s => Agrees q frame s.state) shown later := fun hagrees =>
        ih (mapM_eq_ok_iff.mpr hrest) hlink (fun s hs => hwidth s (List.mem_cons_of_mem _ hs))
          (fun s hs => hstate s (List.mem_cons_of_mem _ hs)) hagrees
      rcases (Direction.cueFor_eq_ok_iff h.index_lt).mp hcue with
        ⟨hstill, rfl⟩ | ⟨-, delta, index, hsome, hindex, rfl⟩ | ⟨-, -, hfits, rfl⟩
      · have hagrees : Agrees q now step.state := by
          refine h.agrees_hold hcurrent hnext hnow ?_
          simpa [Step.isStill, hdelta] using hstill
        obtain ⟨shown, hshows, hall⟩ := hgo hagrees
        exact ⟨now :: shown, .hold hshows, .cons hagrees hall⟩
      · obtain rfl : Attribute.deltas attributes last.state step.state = delta :=
          Option.some.inj (hdelta.symm.trans hsome)
        have hagrees := h.agrees_shift hcurrent hnext hnow hindex
        obtain ⟨shown, hshows, hall⟩ := hgo hagrees
        refine ⟨_ :: shown, .delta ?_ hshows, .cons hagrees hall⟩
        rw [(Instruction.ofIndex_eq_ok (h.index_lt _ _ hindex)).2]
        exact Ranking.delta?_of_index? hindex
      · have hagrees := hstate step (by simp) hfits
        obtain ⟨x, y, angle, hstateOf, hfields⟩ := Instruction.exists_truncated step.state
        obtain ⟨shown, hshows, hall⟩ := hgo hagrees
        rw [hstateOf]
        rw [← hfields] at hshows hagrees
        exact ⟨_ :: shown, .state hshows, .cons hagrees hall⟩

theorem Direction.shows_parked (d : Direction) {frames : ℕ} {cues : List Cue}
    {shown : List Values}
    (h : ∀ now, Cue.Shows d.ranking.delta? now cues shown) (now : Values) :
    Cue.Shows d.ranking.delta? now (d.parked frames ++ cues)
      (List.replicate frames (Instruction.fieldsOf d.sentinel) ++ shown) := by
  cases frames with
  | zero => exact h now
  | succ n =>
      obtain ⟨x, y, angle, hstate, hfields⟩ := Instruction.exists_truncated d.sentinel
      rw [Direction.parked, hstate, ← hfields, List.replicate_succ]
      exact .state ((h _).replicate_hold n)

/-- **All cues of an object keep the invariant.** -/
theorem Direction.Follows.shows (h : d.Follows attributes q) {before later : List Step}
    {first : Step} (hlinked : Linked attributes (before ++ first :: later))
    (hstate : ∀ s ∈ first :: later, (d.overflow = .strict → Instruction.Fits s.state) →
      Agrees q (Instruction.fieldsOf s.state) s.state)
    (hfirst : d.overflow = .strict → Instruction.Fits first.state)
    {rest : List Cue} (hrest : later.mapM (d.cueFor object) = .ok rest) (now : Values) :
    ∃ shown, Cue.Shows d.ranking.delta? now
        (d.parked before.length ++ .play (Instruction.truncated first.state) :: rest)
        (List.replicate before.length (Instruction.fieldsOf d.sentinel) ++ shown)
      ∧ List.Forall₂ (fun frame s => Agrees q frame s.state) shown (first :: later) := by
  have hagrees := hstate first (by simp) hfirst
  obtain ⟨shown, hshows, hall⟩ := h.shows_later hrest hlinked.link_of_append
    (fun s hs => hlinked.width s (List.mem_append_right _ hs))
    (fun s hs => hstate s (List.mem_cons_of_mem _ hs)) hagrees
  obtain ⟨x, y, angle, htruncated, hfields⟩ := Instruction.exists_truncated first.state
  rw [← hfields] at hshows hagrees
  refine ⟨_ :: shown, d.shows_parked (fun now => ?_) now, .cons hagrees hall⟩
  rw [htruncated]
  exact .state hshows

end Follows

/-! ## Finished sessions -/

/-- The number whose multiples are lost of an attribute. -/
def Settings.tolerance (s : Settings) (a : ℕ) : ℤ :=
  let circle := (s.attributes.getD a {}).circle
  match s.overflow with
  | .strict => circle
  | .wrap => Int.gcd circle (Field.ofIndex a).width

theorem Settings.tolerance_dvd {s : Settings} {a : ℕ} (ha : a < s.attributes.length) :
    s.tolerance a ∣ s.attributes[a].circle := by
  rw [tolerance, List.getD_eq_getElem _ _ ha]
  cases s.overflow with
  | strict => exact dvd_rfl
  | wrap => exact Int.gcd_dvd_left _ _

theorem Settings.replays_of_modEq {s : Settings} {a : ℕ} {attr : Attribute}
    (hattr : s.attributes[a]? = some attr) {played recorded : ℤ}
    (h : played ≡ recorded [ZMOD s.tolerance a]) :
    attr.Replays s.overflow (Field.ofIndex a) played recorded := by
  rw [tolerance, List.getD_eq_getElem?_getD, hattr, Option.getD_some] at h
  unfold Attribute.Replays
  rw [Attribute.circle] at h
  cases hoverflow : s.overflow with
  | strict =>
      cases hm : attr.modulo with
      | none => simpa [hoverflow, hm, Int.ModEq] using h
      | some m => simpa [hoverflow, hm] using h
  | wrap =>
      cases hm : attr.modulo with
      | none => simpa [hoverflow, hm] using h
      | some m => simpa [hoverflow, hm] using h

namespace Session.Recorded

variable {objects : ℕ} {settings : Settings} {s : Session}

/-- **Every ranked delta has a component for each attribute, within its range.** -/
theorem delta_within (hs : Recorded objects settings s) {index : ℕ} {delta : Delta}
    (h : s.finish.ranking.delta? index = some delta) :
    delta.length = settings.attributes.length
      ∧ ∀ (a : ℕ) (attr : Attribute) (d : ℤ), settings.attributes[a]? = some attr →
        delta[a]? = some d → attr.range.low ≤ d ∧ d ≤ attr.range.high := by
  obtain ⟨e, he, rfl⟩ := Ranking.exists_mem_of_delta? h
  obtain ⟨htally, hwithin⟩ := Tally.mem_prune.mp (Tally.mem_rank he)
  refine ⟨hs.tallied e htally, ?_⟩
  intro a attr d hattr hd
  refine Tally.within_iff.mp hwithin a d attr.range hd ?_
  rw [hs.settings_eq, Settings.ranges, List.getElem?_map, hattr, Option.map_some]

/-- **Every ranked delta has a byte for each attribute.** -/
theorem delta_bounds (hs : Recorded objects settings s) (hvalid : settings.IsValid) {index : ℕ}
    {delta : Delta} (h : s.finish.ranking.delta? index = some delta) :
    delta.length = settings.attributes.length
      ∧ ∀ a < settings.attributes.length, -128 ≤ delta.getD a 0 ∧ delta.getD a 0 ≤ 127 := by
  obtain ⟨hlength, hwithin⟩ := hs.delta_within h
  refine ⟨hlength, fun a ha => ?_⟩
  have ha' : a < delta.length := by omega
  have hin := hwithin a _ _ (List.getElem?_eq_getElem ha) (List.getElem?_eq_getElem ha')
  have heach := hvalid.each _ (List.getElem_mem ha)
  have hlow := heach.low
  have hhigh := heach.high
  rw [List.getD_eq_getElem _ _ ha']
  omega

/-- **The direction of a finished session keeps the invariant of a player**, for numbers that divide
the circles. -/
theorem follows (hs : Recorded objects settings s) (hvalid : settings.IsValid)
    (hword : ∀ a ∈ settings.attributes, a.HasWordModulo) {q : ℕ → ℤ}
    (hq : ∀ a (h : a < settings.attributes.length), q a ∣ settings.attributes[a].circle)
    (visibility : Visibility) :
    (s.finish.direction visibility).Follows settings.attributes q where
  attributes_le := hvalid.attributes_le
  index_lt := fun _ _ h => Ranking.index?_lt_capacity h
  byte := fun _ _ h => (hs.delta_bounds hvalid (Ranking.delta?_of_index? h)).2
  kept := fun a ha _ hlow hhigh =>
    (Attribute.wrap_modEq_of_byte (hvalid.each _ (List.getElem_mem ha)).modulo_pos
      (hword _ (List.getElem_mem ha)) hlow hhigh).of_dvd (hq a ha)

/-- A state agrees with the values it was made for, up to the tolerance. -/
theorem agrees_fieldsOf (hvalid : settings.IsValid) {values : Values}
    (hwidth : values.length = settings.attributes.length)
    (hfits : settings.overflow = .strict → Instruction.Fits values) :
    Agrees settings.tolerance (Instruction.fieldsOf values) values := by
  refine ⟨rfl, fun a ha => ?_⟩
  have hle := hvalid.attributes_le
  have ha3 : a < 3 := Nat.lt_of_lt_of_le (hwidth ▸ ha) hle
  cases hoverflow : settings.overflow with
  | strict => rw [Instruction.fieldsOf_of_fits (hfits hoverflow) ha3]
  | wrap =>
      refine (Instruction.fieldsOf_modEq values ha3).of_dvd ?_
      rw [Settings.tolerance, hoverflow]
      exact Int.gcd_dvd_right _ _

theorem agrees_zero_fieldsOf (hvalid : settings.IsValid) {values : Values}
    (hwidth : values.length = settings.attributes.length) (hfits : Instruction.Fits values) :
    Agrees 0 (Instruction.fieldsOf values) values := by
  refine ⟨rfl, ?_⟩
  intro a ha
  have hle := hvalid.attributes_le
  rw [Instruction.fieldsOf_of_fits hfits (Nat.lt_of_lt_of_le (hwidth ▸ ha) hle)]

/-- Frames that agree with a step replay each of its attributes. -/
theorem replays_of_agrees (hvalid : settings.IsValid) {frame values : Values}
    (hwidth : values.length = settings.attributes.length)
    (h : Agrees settings.tolerance frame values) {a : ℕ} {attr : Attribute}
    (hattr : settings.attributes[a]? = some attr) :
    ∃ played recorded, frame[a]? = some played ∧ values[a]? = some recorded
      ∧ attr.Replays settings.overflow (Field.ofIndex a) played recorded := by
  have hle : settings.attributes.length ≤ 3 := hvalid.attributes_le
  have ha : a < settings.attributes.length := (List.getElem?_eq_some_iff.mp hattr).1
  have hvalues : a < values.length := by omega
  have hframe : a < frame.length := by rw [h.length_eq]; omega
  refine ⟨frame[a], values[a], List.getElem?_eq_getElem hframe, List.getElem?_eq_getElem hvalues,
    Settings.replays_of_modEq hattr ?_⟩
  have hmod := h.modEq a hvalues
  rwa [List.getD_eq_getElem _ _ hframe, List.getD_eq_getElem _ _ hvalues] at hmod

theorem take_of_agrees (hvalid : settings.IsValid) {frame values : Values}
    (hwidth : values.length = settings.attributes.length) (h : Agrees 0 frame values) :
    frame.take settings.attributes.length = values := by
  have hle : settings.attributes.length ≤ 3 := hvalid.attributes_le
  have hlength := h.length_eq
  refine List.ext_getElem (by rw [List.length_take]; omega) fun a ha hvalues => ?_
  have hframe : a < frame.length := by omega
  have hmod := h.modEq a hvalues
  rw [List.getD_eq_getElem _ _ hframe, List.getD_eq_getElem _ _ hvalues, Pi.zero_apply,
    Int.modEq_zero_iff] at hmod
  rw [List.getElem_take, hmod]

/-- Behind the parked frames stands a frame for each step from the first visible one on. -/
theorem exists_shown {R : Values → Step → Prop} {before rest : List Step} {parked : Values}
    {shown : List Values} (h : List.Forall₂ R shown rest) {k : ℕ} {step : Step}
    (hk : before.length ≤ k) (hstep : (before ++ rest)[k]? = some step) :
    ∃ frame, (List.replicate before.length parked ++ shown)[k]? = some frame ∧ R frame step := by
  rw [List.getElem?_append_right hk] at hstep
  obtain ⟨hrest, rfl⟩ := List.getElem?_eq_some_iff.mp hstep
  have hshown : k - before.length < shown.length := by rw [h.length_eq]; exact hrest
  refine ⟨shown[k - before.length], ?_, h.get hshown hrest⟩
  rw [List.getElem?_append_right (by simpa using hk), List.length_replicate,
    List.getElem?_eq_getElem hshown]

/-- The cues of an object that is seen keep the invariant, for numbers that divide the circles. -/
theorem shows_cues (hs : Recorded objects settings s) (hvalid : settings.IsValid)
    (hword : ∀ a ∈ settings.attributes, a.HasWordModulo) {q : ℕ → ℤ}
    (hq : ∀ a (h : a < settings.attributes.length), q a ∣ settings.attributes[a].circle)
    {visibility : Visibility} {object : ℕ} {before later : List Step} {first : Step}
    (hsteps : s.tracks.steps object = before ++ first :: later)
    (hhidden : ∀ step ∈ before, visibility object step.state = false)
    (hseen : visibility object first.state = true)
    (hstate : ∀ step ∈ first :: later, (settings.overflow = .strict → Instruction.Fits step.state) →
      Agrees q (Instruction.fieldsOf step.state) step.state)
    {cues : List Cue}
    (hcues : (s.finish.direction visibility).cues object (before ++ first :: later) = .ok cues)
    (now : Values) :
    ∃ shown, Cue.Shows s.finish.ranking.delta? now cues
        (List.replicate before.length (Instruction.fieldsOf settings.sentinel) ++ shown)
      ∧ List.Forall₂ (fun frame step => Agrees q frame step.state) shown (first :: later) := by
  obtain ⟨-, hfirst, rest, hrest, rfl⟩ :=
    (Direction.cues_append_eq_ok_iff hhidden hseen).mp hcues
  have hoverflow : (s.finish.direction visibility).overflow = settings.overflow :=
    congrArg Settings.overflow hs.settings_eq
  have hsentinel : (s.finish.direction visibility).sentinel = settings.sentinel :=
    congrArg Settings.sentinel hs.settings_eq
  have hlinked := hs.linked_steps object
  rw [hsteps] at hlinked
  rw [← hoverflow] at hstate
  rw [← hsentinel]
  exact (hs.follows hvalid hword hq visibility).shows hlinked hstate hfirst hrest now

theorem exists_parked {sentinel : Values} {overflow : Overflow}
    (hfits : overflow = .strict → Instruction.Fits sentinel) {frames k : ℕ} (hk : k < frames)
    (shown : List Values) :
    ∃ x y angle, Instruction.ofValues overflow none sentinel = .ok (.state x y angle)
      ∧ (List.replicate frames (Instruction.fieldsOf sentinel) ++ shown)[k]?
        = some [(x.toNat : ℤ), (y.toNat : ℤ), (angle.toNat : ℤ)] := by
  obtain ⟨x, y, angle, htruncated, hfields⟩ := Instruction.exists_truncated sentinel
  refine ⟨x, y, angle, Instruction.ofValues_eq_ok_iff.mpr ⟨hfits, htruncated.symm⟩, ?_⟩
  rw [List.getElem?_append_left (by simpa using hk), List.getElem?_replicate_of_lt hk, hfields]

/-- **What the cues of an object show is a replay of its recording.**  The invariant is carried
twice: up to the tolerance, and exactly where nothing can be lost. -/
theorem isReplay (hs : Recorded objects settings s) (hvalid : settings.IsValid)
    (hword : ∀ a ∈ settings.attributes, a.HasWordModulo) {visibility : Visibility} {object : ℕ}
    {cues : List Cue}
    (hcues : (s.finish.direction visibility).cues object (s.tracks.steps object) = .ok cues)
    (now : Values) : ∃ shown, Cue.Shows s.finish.ranking.delta? now cues shown
      ∧ IsReplay settings visibility object (s.tracks.steps object) shown := by
  have hwidth := (hs.linked_steps object).width
  rcases Direction.hidden_or_seen visibility object (s.tracks.steps object) with
    hhidden | ⟨before, first, later, hsteps, hhidden, hseen⟩
  · rw [Direction.cues_of_hidden hhidden] at hcues
    cases hcues
  rw [hsteps] at hcues hwidth ⊢
  have hlater : ∀ step ∈ first :: later, step.state.length = settings.attributes.length := by
    intro step hstep
    exact hwidth step (List.mem_append_right _ hstep)
  have hfirst : Direction.FirstSeen visibility object (before ++ first :: later) before.length :=
    Direction.firstSeen_append hhidden hseen
  have hparked := ((Direction.cues_append_eq_ok_iff hhidden hseen).mp hcues).1
  rw [Session.finish, Reel.direction, hs.settings_eq] at hparked
  obtain ⟨shown, hshows, hall⟩ := hs.shows_cues hvalid hword (fun _ => Settings.tolerance_dvd)
    hsteps hhidden hseen
    (fun step hstep hfits => agrees_fieldsOf hvalid (hlater step hstep) hfits) hcues now
  refine ⟨_, hshows, ?_, ⟨_, hfirst⟩, ?_, ?_, ?_⟩
  · simp [hall.length_eq]
  · intro f hf k hk
    obtain rfl := hf.unique hfirst
    exact exists_parked (hparked (Nat.zero_lt_of_lt hk)) hk shown
  · intro f hf k step hk hstep
    obtain rfl := hf.unique hfirst
    obtain ⟨frame, hframe, hagrees⟩ := exists_shown hall hk hstep
    refine ⟨frame, hframe, ?_⟩
    intro a attr hattr
    exact replays_of_agrees hvalid (hwidth step (List.mem_of_getElem? hstep)) hagrees hattr
  · intro _ hcircle hfits f hf k step hk hstep
    obtain rfl := hf.unique hfirst
    have hzero : ∀ a (h : a < settings.attributes.length),
        (0 : ℕ → ℤ) a ∣ settings.attributes[a].circle := by
      intro a ha
      simp [Attribute.circle, hcircle _ (List.getElem_mem ha)]
    obtain ⟨exact, hexact, hall'⟩ := hs.shows_cues hvalid hword hzero hsteps hhidden hseen
      (fun step hstep _ => agrees_zero_fieldsOf hvalid (hlater step hstep)
        (hfits step (List.mem_append_right _ hstep))) hcues now
    -- both times the same is shown, since a script shows one thing only
    have hsame := Option.some.inj (hshows.play_pack.symm.trans hexact.play_pack)
    rw [hsame]
    obtain ⟨frame, hframe, hagrees⟩ := exists_shown hall' hk hstep
    exact ⟨frame, hframe,
      take_of_agrees hvalid (hwidth step (List.mem_of_getElem? hstep)) hagrees⟩

end Session.Recorded

/-! ## Scripts -/

/-- The instructions that the bytes of a script spell are those it was compiled to. -/
theorem Direction.instructions_of_compile {d : Direction}
    (hranking : ∀ delta index, d.ranking.index? delta = some index → index < 128) {object : ℕ}
    {steps : List Step} {script : Script} (h : d.compile object steps = .ok script) :
    d.instructions object steps = .ok script.instructions := by
  obtain ⟨instructions, hinstructions, rfl⟩ := map_eq_ok_iff.mp h
  rw [hinstructions, Script.instructions, Script.ofInstructions]
  rw [Instruction.decodeAll_flatMap_encode fun i hi =>
    Direction.isCanonical_of_mem_instructions hranking hinstructions hi]

/-- **Playing a script replays the recording of its object.** -/
theorem Session.play_script {objects : ℕ} {settings : Settings} {start session : Session}
    {frames : List (ℕ × Values)} (hstart : Session.start objects settings = .ok start)
    (hrecord : start.recordAll frames = .ok session)
    (hword : ∀ a ∈ settings.attributes, a.HasWordModulo) {visibility : Visibility} {object : ℕ}
    {script : Script} (hscript : session.finish.script visibility object = .ok script)
    (now : Values) :
    (session.tracks.steps object).map Step.state = (frames.filter (·.1 = object)).map Prod.snd
      ∧ ∃ shown, Instruction.play session.finish.ranking.delta? now script.instructions = some shown
        ∧ IsReplay settings visibility object (session.tracks.steps object) shown := by
  have hvalid := (start_eq_ok_iff.mp hstart).1
  have hrecorded := recorded_of_recordAll hstart hrecord
  refine ⟨states_of_recordAll hstart hrecord object, ?_⟩
  obtain ⟨cues, hcues, hpack⟩ := map_eq_ok_iff.mp
    (Direction.instructions_of_compile (fun _ _ h => Ranking.index?_lt_capacity h) hscript)
  obtain ⟨shown, hshows, hreplay⟩ := hrecorded.isReplay hvalid hword hcues now
  exact ⟨shown, hpack ▸ hshows.play_pack, hreplay⟩

/-! ## A walker that turns

It comes in from the left, turns past the end of its circle and then rests.
-/

/-- The circle has 32 points, and nothing that does not fit is accepted. -/
def Settings.turning : Settings :=
  { Settings.ofCount 3 with
    attributes := [{}, {}, { modulo := some 32 }]
    overflow := .strict }

/-- The frames of the walker. -/
def Session.turningFrames : List (ℕ × Values) :=
  [(0, [-1, 0, 30]), (0, [5, 7, 30]), (0, [6, 7, 1]), (0, [6, 7, 1])]

/-- The session in which nothing is recorded yet. -/
def Session.beforeTurning : Session where
  settings := Settings.turning
  tracks := Tracks.ofCount 1 Settings.turning.attributes

/-- The session in which the walker is recorded. -/
def Session.afterTurning : Session where
  settings := Settings.turning
  tracks := ⟨Settings.turning.attributes, [⟨[⟨[6, 7, 1], some [0, 0, 0]⟩,
    ⟨[6, 7, 1], some [1, 0, 3]⟩, ⟨[5, 7, 30], some [6, 7, 0]⟩, ⟨[-1, 0, 30], none⟩]⟩]⟩
  tally := ⟨[⟨[6, 7, 0], 1⟩, ⟨[1, 0, 3], 1⟩, ⟨[0, 0, 0], 1⟩]⟩

theorem Settings.hasWordModulo_turning : ∀ a ∈ Settings.turning.attributes, a.HasWordModulo := by
  simp [Settings.turning, Attribute.HasWordModulo]

/-- The script of the walker is two states, a delta, a hold and the end. -/
theorem Session.play_script_turning :
    Session.start 1 Settings.turning = .ok beforeTurning
      ∧ beforeTurning.recordAll turningFrames = .ok afterTurning
      ∧ afterTurning.finish.script afterTurning.finish.onScreen 0
          = .ok ⟨0, [192, 0, 0, 252, 5, 7, 1, 129, 128]⟩
      ∧ ∃ shown, Instruction.play afterTurning.finish.ranking.delta? [0, 0, 0]
          (Script.instructions ⟨0, [192, 0, 0, 252, 5, 7, 1, 129, 128]⟩) = some shown
        ∧ IsReplay Settings.turning afterTurning.finish.onScreen 0
            (afterTurning.tracks.steps 0) shown := by
  have hstart : Session.start 1 Settings.turning = .ok beforeTurning := by rfl
  have hrecord : beforeTurning.recordAll turningFrames = .ok afterTurning := by rfl
  have hscript : afterTurning.finish.script afterTurning.finish.onScreen 0
      = .ok ⟨0, [192, 0, 0, 252, 5, 7, 1, 129, 128]⟩ := by cbv
  exact ⟨hstart, hrecord, hscript,
    (play_script hstart hrecord Settings.hasWordModulo_turning hscript [0, 0, 0]).2⟩

end DeltaScript
