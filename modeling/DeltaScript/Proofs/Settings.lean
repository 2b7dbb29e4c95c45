import DeltaScript.Settings
import DeltaScript.Failure.Diagnostic
import DeltaScript.Proofs.Stages

/-!
# Settings that pass the check

`Settings.check` looks for the first fault.  Here is what is known once it has found none, and what
it says when it has found one.

* `Attribute.IsValid`, `Settings.IsValid` — what settings without a fault satisfy.
* `Settings.check_eq_ok_iff` — **the check passes exactly the valid settings.**
* `Settings.code_of_check` — every fault it finds has the same code.
-/

namespace DeltaScript

/-- An attribute without a fault: its range is not empty and fits a signed byte, and its circle, if
it has one, has a length. -/
structure Attribute.IsValid (a : Attribute) : Prop where
  ordered : a.range.low ≤ a.range.high
  low : -128 ≤ a.range.low
  high : a.range.high ≤ 127
  modulo_pos : ∀ m, a.modulo = some m → 0 < m

/-- Settings without a fault. -/
structure Settings.IsValid (s : Settings) : Prop where
  attributes_pos : 0 < s.attributes.length
  attributes_le : s.attributes.length ≤ maxAttributes
  each : ∀ a ∈ s.attributes, a.IsValid
  sentinel : s.sentinel.length = s.attributes.length

namespace Settings

theorem checkAttribute_eq_ok_iff {index : ℕ} {a : Attribute} :
    checkAttribute index a = .ok () ↔ a.IsValid := by
  unfold checkAttribute
  dsimp only
  constructor
  · intro h
    split_ifs at h with hempty hwide
    refine ⟨by omega, by omega, by omega, fun m hm => ?_⟩
    rw [hm] at h
    by_contra hneg
    simp [show m ≤ 0 by omega] at h
  · rintro ⟨hordered, hlow, hhigh, hmodulo⟩
    rw [if_neg (by omega), if_neg (by omega)]
    cases hm : a.modulo with
    | none => rfl
    | some m => exact if_neg (not_le.mpr (hmodulo m hm))

theorem checkAttributes_eq_ok_iff {index : ℕ} {attributes : List Attribute} :
    checkAttributes index attributes = .ok () ↔ ∀ a ∈ attributes, a.IsValid := by
  induction attributes generalizing index with
  | nil => simp [checkAttributes]
  | cons a rest ih =>
      rw [checkAttributes, bind_eq_ok_iff, List.forall_mem_cons, ← @ih (index + 1),
        ← @checkAttribute_eq_ok_iff index a]
      exact ⟨fun ⟨_, ha, hrest⟩ => ⟨ha, hrest⟩, fun ⟨ha, hrest⟩ => ⟨(), ha, hrest⟩⟩

/-- The check looks at the number of attributes, then at each of them, then at the parked values. -/
theorem check_eq (s : Settings) : s.check =
    if s.attributes.length = 0 ∨ maxAttributes < s.attributes.length then
      .error (.attributeCount s.attributes.length)
    else checkAttributes 0 s.attributes >>= fun _ =>
      if s.sentinel.length = s.attributes.length then .ok ()
      else .error (.sentinelLength s.sentinel.length s.attributes.length) := by
  unfold check
  by_cases hcount : s.attributes.length = 0 ∨ maxAttributes < s.attributes.length
  · simp only [hcount, if_true]
    rfl
  · by_cases hsentinel : s.sentinel.length = s.attributes.length
    · simp only [hcount, hsentinel, if_false, if_true, ne_eq, not_true]
      rfl
    · simp only [hcount, hsentinel, if_false, if_true, ne_eq, not_false_iff]

/-- **The check passes exactly the valid settings.** -/
theorem check_eq_ok_iff {s : Settings} : s.check = .ok () ↔ s.IsValid := by
  rw [check_eq]
  by_cases hcount : s.attributes.length = 0 ∨ maxAttributes < s.attributes.length
  · rw [if_pos hcount]
    refine ⟨fun h => (nomatch h), fun h => ?_⟩
    have := h.attributes_pos
    have := h.attributes_le
    omega
  · rw [if_neg hcount, bind_eq_ok_iff]
    rw [not_or, not_lt] at hcount
    constructor
    · rintro ⟨_, hattributes, h⟩
      split_ifs at h with hsentinel
      exact ⟨Nat.pos_of_ne_zero hcount.1, hcount.2, checkAttributes_eq_ok_iff.mp hattributes,
        hsentinel⟩
    · intro h
      exact ⟨(), checkAttributes_eq_ok_iff.mpr h.each, if_pos h.sentinel⟩

/-! ## The code of a fault -/

theorem code_of_checkAttribute {index : ℕ} {a : Attribute} {e : Failure}
    (h : checkAttribute index a = .error e) : e.code = .settings := by
  unfold checkAttribute at h
  dsimp only at h
  split_ifs at h
  · cases h
    rfl
  · cases h
    rfl
  · cases hm : a.modulo with
    | none => simp [hm] at h
    | some m =>
        simp only [hm] at h
        split_ifs at h
        cases h
        rfl

theorem code_of_checkAttributes {index : ℕ} {attributes : List Attribute} {e : Failure}
    (h : checkAttributes index attributes = .error e) : e.code = .settings := by
  induction attributes generalizing index with
  | nil => cases h
  | cons a rest ih =>
      rcases bind_eq_error_iff.mp h with h | ⟨_, _, h⟩
      · exact code_of_checkAttribute h
      · exact ih h

/-- Every fault of settings has the same code. -/
theorem code_of_check {s : Settings} {e : Failure} (h : s.check = .error e) :
    e.code = .settings := by
  rw [check_eq] at h
  by_cases hcount : s.attributes.length = 0 ∨ maxAttributes < s.attributes.length
  · rw [if_pos hcount] at h
    cases h
    rfl
  · rw [if_neg hcount] at h
    rcases bind_eq_error_iff.mp h with h | ⟨_, _, h⟩
    · exact code_of_checkAttributes h
    · split_ifs at h
      cases h
      rfl

end Settings

end DeltaScript
