import DeltaScript.Proofs.Circle
import DeltaScript.Proofs.History

/-!
# Deltas lose nothing

An object is played back from its first state and its deltas alone.  So the deltas that are recorded
have to lead from each state to the next, on a circle up to whole turns.

* `Tracks.recordAll?` — adds frames one after the other, under attributes that nobody has checked.
* `Tracks.exists_recordAll` — a session would track the same.
* `Measures` — what is expected of deltas that stand for the way through states.
* `Attribute.sum_modEq` — **the sum of deltas leads where the states do**, by induction on how many
  there are; `Attribute.measures_allDeltas`.
* `Tracks.exact_deltas` — so the deltas of an object measure the way through its frames.
-/

namespace DeltaScript

namespace Tracks

/-! ## Tracks without a session -/

/-- Adds frames one after the other; `none` if one of them is refused, or a delta of it does not
exist. -/
def recordAll? (t : Tracks) : List (ℕ × Values) → Option Tracks
  | [] => some t
  | (object, values) :: rest =>
      match t.record? object values with
      | some (.ok (_, next)) => next.recordAll? rest
      | _ => none

theorem record_of_record? {t : Tracks} {object : ℕ} {values : Values}
    {r : Except Failure (Step × Tracks)} (h : t.record? object values = some r) :
    t.record object values = r := by
  rw [record?, Option.ite_none_right_eq_some] at h
  exact Option.some.inj h.2

/-- **A session would track the same.** -/
theorem exists_recordAll {s : Session} {t : Tracks} {frames : List (ℕ × Values)}
    (h : s.tracks.recordAll? frames = some t) :
    ∃ s', s.recordAll frames = .ok s' ∧ s'.tracks = t := by
  induction frames generalizing s with
  | nil => exact ⟨s, rfl, Option.some.inj h⟩
  | cons frame rest ih =>
      obtain ⟨object, values⟩ := frame
      rw [recordAll?] at h
      split at h
      · next step next hrecord =>
          obtain ⟨s', hs', rfl⟩ : ∃ s', s.record object values = .ok s' ∧ s'.tracks = next := by
            refine ⟨_, map_eq_ok_iff.mpr ⟨_, record_of_record? hrecord, rfl⟩, ?_⟩
            dsimp only
            split <;> rfl
          obtain ⟨s'', hs'', heq⟩ := ih h
          refine ⟨s'', ?_, heq⟩
          rw [Session.recordAll_cons, hs']
          exact hs''
      · cases h

end Tracks

/-! ## The way through states -/

/-- Deltas measure the way through states. -/
structure Measures (attributes : List Attribute) (states : List Values) (deltas : List Delta) :
    Prop where
  state_width : ∀ state ∈ states, state.length = attributes.length
  delta_width : ∀ delta ∈ deltas, delta.length = attributes.length
  /-- A delta leads to each state but the first. -/
  length_eq : deltas.length = states.length - 1
  /-- On a circle, deltas lead to the same point as the states. -/
  sum : ∀ (i : ℕ) (a : Attribute) (m : ℤ), attributes[i]? = some a → a.modulo = some m → 0 < m →
    m ≤ 0x7FFFFFFF → ∀ (k : ℕ) (first state : Values), states.head? = some first →
      states[k]? = some state →
        first.getD i 0 + ((deltas.take k).map (·.getD i 0)).sum ≡ state.getD i 0 [ZMOD m]
  /-- Elsewhere, a difference of 32 bits is kept. -/
  exact : ∀ (i : ℕ) (a : Attribute), attributes[i]? = some a → a.modulo = none →
    ∀ (k : ℕ) (before after : Values) (delta : Delta), states[k]? = some before →
      states[k + 1]? = some after → deltas[k]? = some delta →
        (-0x80000000 ≤ after.getD i 0 - before.getD i 0 →
          after.getD i 0 - before.getD i 0 ≤ 0x7FFFFFFF →
            delta.getD i 0 = after.getD i 0 - before.getD i 0)
        ∧ (delta.getD i 0 = 0 → before.getD i 0 = after.getD i 0)
        ∧ (-128 ≤ delta.getD i 0 → delta.getD i 0 ≤ 127 →
          delta.getD i 0 = after.getD i 0 - before.getD i 0)

namespace Attribute

variable {attributes : List Attribute} {states : List Values} {i : ℕ} {a : Attribute}

/-- The deltas between one state and the next. -/
def allDeltas (attributes : List Attribute) (states : List Values) : List Delta :=
  List.zipWith (deltas attributes) states states.tail

theorem getElem?_allDeltas {k : ℕ} {before after : Values} (hbefore : states[k]? = some before)
    (hafter : states[k + 1]? = some after) :
    (allDeltas attributes states)[k]? = some (deltas attributes before after) := by
  rw [allDeltas, List.getElem?_zipWith_eq_some]
  exact ⟨before, after, hbefore, by rwa [List.getElem?_tail], rfl⟩

section

variable (hwidth : ∀ state ∈ states, state.length = attributes.length)

include hwidth

theorem length_of_mem_allDeltas {delta : Delta} (h : delta ∈ allDeltas attributes states) :
    delta.length = attributes.length := by
  obtain ⟨k, hk⟩ := List.mem_iff_getElem?.mp h
  obtain ⟨before, after, hbefore, hafter, rfl⟩ := List.getElem?_zipWith_eq_some.mp hk
  have hlength := hwidth before (List.mem_of_getElem? hbefore)
  have hlength' := hwidth after (List.mem_of_mem_tail (List.mem_of_getElem? hafter))
  simp [deltas, hlength, hlength']

/-- Attribute by attribute, a delta is the difference of two states, wrapped. -/
theorem getD_of_allDeltas (ha : attributes[i]? = some a) {k : ℕ} {before after : Values}
    {delta : Delta} (hbefore : states[k]? = some before) (hafter : states[k + 1]? = some after)
    (hdelta : (allDeltas attributes states)[k]? = some delta) :
    delta.getD i 0 = a.wrap (after.getD i 0 - before.getD i 0) := by
  obtain ⟨hi, rfl⟩ := List.getElem?_eq_some_iff.mp ha
  obtain rfl := Option.some.inj ((getElem?_allDeltas hbefore hafter).symm.trans hdelta)
  exact getD_deltas (hwidth before (List.mem_of_getElem? hbefore))
    (hwidth after (List.mem_of_getElem? hafter)) hi

/-- **The sum of deltas leads where the states do**, by induction on how many there are. -/
theorem sum_modEq (ha : attributes[i]? = some a) {m : ℤ} (hm : a.modulo = some m) (hpos : 0 < m)
    (hword : m ≤ 0x7FFFFFFF) {k : ℕ} {first state : Values} (hfirst : states.head? = some first)
    (hstate : states[k]? = some state) :
    first.getD i 0 + (((allDeltas attributes states).take k).map (·.getD i 0)).sum
      ≡ state.getD i 0 [ZMOD m] := by
  induction k generalizing state with
  | zero =>
      rw [List.head?_eq_getElem?, hstate] at hfirst
      simp [Option.some.inj hfirst]
  | succ k ih =>
      obtain ⟨before, hbefore⟩ : ∃ before, states[k]? = some before := by
        obtain ⟨hk, -⟩ := List.getElem?_eq_some_iff.mp hstate
        exact ⟨_, List.getElem?_eq_getElem (Nat.lt_of_succ_lt hk)⟩
      have hdelta : (allDeltas attributes states)[k]? = some (deltas attributes before state) :=
        getElem?_allDeltas hbefore hstate
      have hwrap := getD_of_allDeltas hwidth ha hbefore hstate hdelta
      have hstep : a.wrap (state.getD i 0 - before.getD i 0)
          ≡ state.getD i 0 - before.getD i 0 [ZMOD m] := wrap_modEq hm hpos hword _
      have hsum := (ih hbefore).add hstep
      rw [add_sub_cancel, ← hwrap] at hsum
      rw [List.take_add_one, hdelta, Option.toList_some, List.map_append, List.sum_append,
        List.map_singleton, List.sum_singleton, ← add_assoc]
      exact hsum

/-- Deltas between one state and the next measure the way through the states. -/
theorem measures_allDeltas : Measures attributes states (allDeltas attributes states) := by
  constructor
  case state_width => exact hwidth
  case delta_width => exact fun delta hdelta => length_of_mem_allDeltas hwidth hdelta
  case length_eq =>
    rw [allDeltas, List.length_zipWith, List.length_tail]
    omega
  case sum =>
    intro i a m ha hm hpos hword k first state hfirst hstate
    exact sum_modEq hwidth ha hm hpos hword hfirst hstate
  case exact =>
    intro i a ha hm k before after delta hbefore hafter hdelta
    rw [getD_of_allDeltas hwidth ha hbefore hafter hdelta]
    refine ⟨wrap_eq_of_word hm, ?_, wrap_eq_of_byte hm⟩
    intro hzero
    have hsame := eq_zero_of_wrap_eq_zero hm hzero
    omega

end

end Attribute

/-! ## The way through frames -/

namespace Tracks

/-- **Deltas are the shortest way round, and lose nothing.**  On a circle of at most 32 bits, no
other integer within half a turn leads to the same point.  So the deltas that are recorded of an
object measure the way through its frames. -/
theorem exact_deltas :
    (∀ {a : Attribute} {m : ℤ}, a.modulo = some m → 0 < m → m ≤ 0x7FFFFFFF →
      ∀ d, a.IsShortest m d)
    ∧ ∀ {objects : ℕ} {attributes : List Attribute} {frames : List (ℕ × Values)} {t : Tracks},
      (ofCount objects attributes).recordAll? frames = some t → ∀ object,
        (t.steps object).map Step.state = (frames.filter (·.1 = object)).map Prod.snd
          ∧ (∀ step ∈ (t.steps object).head?, step.delta = none)
          ∧ Measures attributes ((t.steps object).map Step.state)
            ((t.steps object).filterMap Step.delta) := by
  refine ⟨Attribute.isShortest, ?_⟩
  intro objects attributes frames t h object
  let settings : Settings := { attributes, sentinel := [] }
  obtain ⟨s, hs, rfl⟩ : ∃ s,
      ({ settings, tracks := ofCount objects attributes } : Session).recordAll frames = .ok s
        ∧ s.tracks = t := exists_recordAll h
  have hrecorded := Session.recordAll_preserves Session.Recorded.record
    (Session.recorded_fresh objects settings) hs
  have hlinked : Linked attributes (s.tracks.steps object) := hrecorded.linked_steps object
  have hstates := Session.states_recordAll hs object
  rw [steps_ofCount, List.map_nil, List.nil_append] at hstates
  refine ⟨hstates, hlinked.head, ?_⟩
  rw [hlinked.filterMap_delta]
  refine Attribute.measures_allDeltas ?_
  intro state hstate
  obtain ⟨step, hstep, rfl⟩ := List.mem_map.mp hstate
  exact hlinked.width step hstep

/-- One attribute goes round a circle of 32, the other leaps further than 32 bits. -/
def leaping : List (ℕ × Values) :=
  [(0, [31, -0x80000000]), (0, [1, 0x7FFFFFFF]), (0, [17, 0x7FFFFFFE]), (0, [0, 0x7FFFFFFE])]

/-- What is tracked of that.  The leap is held within 32 bits; half a turn counts as forward. -/
def leapt : Tracks where
  attributes := [⟨.default, some 32⟩, {}]
  tracks := [⟨[⟨[0, 0x7FFFFFFE], some [15, 0]⟩, ⟨[17, 0x7FFFFFFE], some [16, -1]⟩,
    ⟨[1, 0x7FFFFFFF], some [2, 0x7FFFFFFF]⟩, ⟨[31, -0x80000000], none⟩]⟩]

theorem exact_deltas_leapt :
    Attribute.IsShortest ⟨.default, some 32⟩ 32 (-0x8000000000000000)
      ∧ (ofCount 1 leapt.attributes).recordAll? leaping = some leapt
      ∧ Measures leapt.attributes ((leapt.steps 0).map Step.state)
        ((leapt.steps 0).filterMap Step.delta) := by
  have h : (ofCount 1 leapt.attributes).recordAll? leaping = some leapt := by decide
  exact ⟨exact_deltas.1 rfl (by decide) (by decide) _, h, (exact_deltas.2 h 0).2.2⟩

end Tracks

end DeltaScript
