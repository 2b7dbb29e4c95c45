import DeltaScript.Proofs.History
import DeltaScript.Proofs.Player
import DeltaScript.Proofs.Replay

/-!
# Delta tables lose nothing

A delta table holds one byte for each ranked delta, which is what is left of a component after its
upper bits are cut off; and before that, the component was cut to 32 bits when the frame was taken
down.  Neither cut is ever noticed: settings are refused unless every range fits a signed byte, and
the deltas that leave a range are pruned before any delta is ranked.

* `Reel.getElem?_table` — the byte of a delta in the table of an attribute.
* `Session.Recorded.exists_byte` — **the byte reads back as the component**, which lies in the range
  of the attribute.
* `Session.Recorded.exact_component` — a component of a ranked delta is a difference as it was
  recorded, up to whole turns of a circle.
* `Session.Recorded.index?_eq_none` — a delta that leaves a range is not named.
* `Reel.IsLossless`, `Session.isLossless_finish` — all of this for every recording.
-/

namespace DeltaScript

/-! ## The tables of a reel -/

namespace Reel

variable {r : Reel} {table : List UInt8}

theorem length_of_mem_tables (h : table ∈ r.tables) : table.length = r.ranking.size := by
  obtain ⟨a, -, rfl⟩ := List.mem_map.mp h
  simp [Ranking.table, Ranking.size]

/-- The byte of a delta in the table of an attribute. -/
theorem getElem?_table {index a : ℕ} {delta : Delta} {d : ℤ}
    (h : r.ranking.delta? index = some delta) (hd : delta[a]? = some d) :
    (r.ranking.table a)[index]? = some (Ranking.toByte d) := by
  obtain ⟨e, he, rfl⟩ := Option.map_eq_some_iff.mp h
  simp [Ranking.table, he, hd]

/-- Delta tables that hold the ranked deltas of a reel without loss. -/
structure IsLossless (r : Reel) (attributes : List Attribute) : Prop where
  /-- There is a table for each attribute. -/
  tables_length : r.tables.length = attributes.length
  size_le : r.ranking.size ≤ Ranking.capacity
  length_eq : ∀ table ∈ r.tables, table.length = r.ranking.size
  /-- Every ranked delta has a component for each attribute, within its range, which the byte in the
  table of the attribute stands for. -/
  byte : ∀ index < r.ranking.size, ∃ delta, r.ranking.delta? index = some delta
    ∧ delta.length = attributes.length
    ∧ ∀ (a : ℕ) (attr : Attribute), attributes[a]? = some attr →
      ∃ table byte d, r.tables[a]? = some table ∧ table[index]? = some byte
        ∧ delta[a]? = some d ∧ signedByte byte = d ∧ attr.range.low ≤ d ∧ d ≤ attr.range.high
  /-- Every ranked delta is that of some step. -/
  recorded : ∀ index delta, r.ranking.delta? index = some delta →
    ∃ object < r.tracks.objects, ∃ step ∈ r.tracks.steps object, step.delta = some delta
  /-- Wherever a ranked delta was recorded, its components are the differences of the values: they
  are the differences themselves where there is no circle, and else the same up to whole turns. -/
  exact : ∀ (object k : ℕ) (before after : Step) (index : ℕ) (delta : Delta),
    (r.tracks.steps object)[k]? = some before → (r.tracks.steps object)[k + 1]? = some after →
    after.delta = some delta → r.ranking.delta? index = some delta →
    ∀ (a : ℕ) (attr : Attribute), attributes[a]? = some attr →
      ∃ x y d, before.state[a]? = some x ∧ after.state[a]? = some y ∧ delta[a]? = some d
        ∧ (attr.modulo = none → d = y - x)
        ∧ ∀ m, attr.modulo = some m → m ≤ 0x7FFFFFFF → d ≡ y - x [ZMOD m]
  /-- A recorded delta that leaves the range of an attribute has no index. -/
  outside : ∀ (object : ℕ), ∀ step ∈ r.tracks.steps object, ∀ delta, step.delta = some delta →
    ∀ (a : ℕ) (attr : Attribute) (d : ℤ), attributes[a]? = some attr → delta[a]? = some d →
      (d < attr.range.low ∨ attr.range.high < d) → r.ranking.index? delta = none

end Reel

/-! ## The tables of a finished session -/

namespace Session.Recorded

variable {objects : ℕ} {settings : Settings} {s : Session} {index a : ℕ} {delta : Delta}
  {attr : Attribute}

theorem getElem?_tables (hs : Recorded objects settings s) (ha : a < settings.attributes.length) :
    s.finish.tables[a]? = some (s.finish.ranking.table a) := by
  have htracks : s.finish.tracks.attributes = settings.attributes := hs.attributes_eq
  simp [Reel.tables, htracks, ha]

/-- **The byte of a ranked delta reads back as its component**, since a range fits a signed byte. -/
theorem exists_byte (hs : Recorded objects settings s) (hvalid : settings.IsValid)
    (h : s.finish.ranking.delta? index = some delta) (hattr : settings.attributes[a]? = some attr) :
    ∃ table byte d, s.finish.tables[a]? = some table ∧ table[index]? = some byte
      ∧ delta[a]? = some d ∧ signedByte byte = d ∧ attr.range.low ≤ d ∧ d ≤ attr.range.high := by
  obtain ⟨hlength, hwithin⟩ := hs.delta_within h
  have ha : a < settings.attributes.length := (List.getElem?_eq_some_iff.mp hattr).1
  have hd : delta[a]? = some delta[a] := List.getElem?_eq_getElem (by omega)
  obtain ⟨hlow, hhigh⟩ := hwithin a attr _ hattr hd
  have heach := hvalid.each attr (List.mem_of_getElem? hattr)
  refine ⟨_, _, _, hs.getElem?_tables ha, Reel.getElem?_table h hd, hd, ?_, hlow, hhigh⟩
  exact signedByte_toByte (heach.low.trans hlow) (hhigh.trans heach.high)

/-- **A component within its range is the recorded difference**, up to whole turns of a circle: it
was neither clamped nor cut to 32 bits. -/
theorem exact_component (hs : Recorded objects settings s) (hvalid : settings.IsValid)
    {object k : ℕ} {before after : Step} (hbefore : (s.tracks.steps object)[k]? = some before)
    (hafter : (s.tracks.steps object)[k + 1]? = some after) (hdelta : after.delta = some delta)
    (h : s.finish.ranking.delta? index = some delta)
    (hattr : settings.attributes[a]? = some attr) :
    ∃ x y d, before.state[a]? = some x ∧ after.state[a]? = some y ∧ delta[a]? = some d
      ∧ (attr.modulo = none → d = y - x)
      ∧ ∀ m, attr.modulo = some m → m ≤ 0x7FFFFFFF → d ≡ y - x [ZMOD m] := by
  have hlinked := hs.linked_steps object
  have ha : a < settings.attributes.length := (List.getElem?_eq_some_iff.mp hattr).1
  have hx : a < before.state.length := by
    rwa [hlinked.width before (List.mem_of_getElem? hbefore)]
  have hy : a < after.state.length := by
    rwa [hlinked.width after (List.mem_of_getElem? hafter)]
  rw [hlinked.delta_eq hbefore hafter, Option.some_inj] at hdelta
  have hd : delta[a]? = some (attr.wrap (after.state[a] - before.state[a])) := by
    rw [← hdelta]
    exact Attribute.getElem?_deltas hattr (List.getElem?_eq_getElem hx)
      (List.getElem?_eq_getElem hy)
  obtain ⟨hlow, hhigh⟩ := (hs.delta_within h).2 a attr _ hattr hd
  have heach := hvalid.each attr (List.mem_of_getElem? hattr)
  refine ⟨_, _, _, List.getElem?_eq_getElem hx, List.getElem?_eq_getElem hy, hd, ?_, ?_⟩
  · intro hm
    exact Attribute.wrap_eq_of_byte hm (heach.low.trans hlow) (hhigh.trans heach.high)
  · intro m hm hword
    exact Attribute.wrap_modEq hm (heach.modulo_pos m hm) hword _

/-- **A delta that leaves the range of an attribute has no index.** -/
theorem index?_eq_none (hs : Recorded objects settings s) {d : ℤ}
    (hattr : settings.attributes[a]? = some attr) (hd : delta[a]? = some d)
    (houtside : d < attr.range.low ∨ attr.range.high < d) :
    s.finish.ranking.index? delta = none := by
  cases hindex : s.finish.ranking.index? delta with
  | none => rfl
  | some index =>
      obtain ⟨hlow, hhigh⟩ :=
        (hs.delta_within (Ranking.delta?_of_index? hindex)).2 a attr d hattr hd
      omega

end Session.Recorded

namespace Session

variable {objects : ℕ} {settings : Settings} {start session : Session}
  {frames : List (ℕ × Values)}

/-- Every ranked delta was recorded. -/
theorem exists_step_of_delta? (hstart : Session.start objects settings = .ok start)
    (hrecord : start.recordAll frames = .ok session) {index : ℕ} {delta : Delta}
    (h : session.finish.ranking.delta? index = some delta) :
    ∃ object < session.tracks.objects, ∃ step ∈ session.tracks.steps object,
      step.delta = some delta := by
  obtain ⟨e, he, rfl⟩ := Ranking.exists_mem_of_delta? h
  have htally := (Tally.mem_prune.mp (Tally.mem_rank he)).1
  have hmem := ((counts_deltas hstart hrecord).mem_iff e.delta).mp (List.mem_map_of_mem htally)
  simpa [Tracks.deltas_eq] using hmem

/-- **The delta tables of every recording are lossless.** -/
theorem isLossless_finish (hstart : Session.start objects settings = .ok start)
    (hrecord : start.recordAll frames = .ok session) :
    session.finish.IsLossless settings.attributes := by
  have hvalid := (start_eq_ok_iff.mp hstart).1
  have hs := recorded_of_recordAll hstart hrecord
  constructor
  case tables_length =>
    rw [Reel.tables, List.length_map, List.length_range]
    exact congrArg List.length hs.attributes_eq
  case size_le => exact Tally.size_rank_le _
  case length_eq =>
    intro table htable
    exact Reel.length_of_mem_tables htable
  case byte =>
    intro index hindex
    have hdelta : session.finish.ranking.delta? index
        = some session.finish.ranking.entries[index].delta := by
      rw [Ranking.delta?, List.getElem?_eq_getElem hindex, Option.map_some]
    refine ⟨_, hdelta, (hs.delta_within hdelta).1, ?_⟩
    intro a attr hattr
    exact hs.exists_byte hvalid hdelta hattr
  case recorded =>
    intro index delta h
    exact exists_step_of_delta? hstart hrecord h
  case exact =>
    intro object k before after index delta hbefore hafter hdelta h a attr hattr
    exact hs.exact_component hvalid hbefore hafter hdelta h hattr
  case outside =>
    intro object step hstep delta hdelta a attr d hattr hd houtside
    exact hs.index?_eq_none hattr hd houtside

/-! ## A recording at the limits

One attribute may change by every signed byte, and another one lives on a circle.
-/

def limitsSettings : Settings where
  attributes := [⟨⟨-128, 127⟩, none⟩, ⟨⟨-7, 7⟩, some 256⟩]
  sentinel := [0, 0]

def beforeLimits : Session where
  settings := limitsSettings
  tracks := .ofCount 1 limitsSettings.attributes

/-- The last two changes of the first attribute are too large, one of them for 32 bits. -/
def limitsFrames : List (ℕ × Values) :=
  [(0, [0, 250]), (0, [127, 1]), (0, [-1, 250]), (0, [127, 250]), (0, [-0x80000000, 250]),
    (0, [0x7FFFFFFF, 250])]

def afterLimits : Session :=
  (beforeLimits.recordWhile limitsFrames).1

theorem isLossless_finish_limits : Session.start 1 limitsSettings = .ok beforeLimits
    ∧ beforeLimits.recordAll limitsFrames = .ok afterLimits
    ∧ afterLimits.finish.IsLossless limitsSettings.attributes
    ∧ afterLimits.finish.ranking.entries = [⟨[127, 7], 1⟩, ⟨[-128, -7], 1⟩]
    ∧ afterLimits.finish.tables = [[0x7F, 0x80], [0x07, 0xF9]]
    ∧ afterLimits.finish.recorded = 5 := by
  have hstart : Session.start 1 limitsSettings = .ok beforeLimits := by rfl
  have hrecord : beforeLimits.recordAll limitsFrames = .ok afterLimits := by rfl
  exact ⟨hstart, hrecord, isLossless_finish hstart hrecord, by cbv, by cbv, by rfl⟩

end Session

end DeltaScript
