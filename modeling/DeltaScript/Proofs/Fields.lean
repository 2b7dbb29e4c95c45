import Mathlib
import DeltaScript.Instruction.Basic

/-!
# The fields of a state

A state instruction has three fields of fixed width.  Values that fit are kept; others lose their
high bits, or are refused.

* `Instruction.Fits`, `Instruction.FirstMisfit` — all values fit their fields, or there is a first
  one that does not.  The search for it finds none exactly in the one case, and that one in the
  other (`Instruction.misfit?_eq_none_iff`, `Instruction.misfit?_eq_some_iff`).
* `Instruction.ofValues_eq_ok_iff`, `Instruction.ofValues_eq_error_iff` — **a state instruction is
  refused only under the strict treatment, and only for values that do not fit.**
* `Instruction.fieldsOf` — the values that a state instruction shows, and
  `Instruction.fieldsOf_modEq`, `Instruction.fieldsOf_of_fits`: how they relate to those asked for.
* `Field.ofIndex` — the field that holds the attribute with a given number.
-/

namespace DeltaScript

/-- The field that holds an attribute. -/
def Field.ofIndex : ℕ → Field
  | 0 => .x
  | 1 => .y
  | _ => .angle

namespace Instruction

/-! ## Values that fit -/

/-- All values fit their fields.  A value that is missing reads as zero. -/
def Fits (values : Values) : Prop :=
  ∀ p ∈ fieldValues values, 0 ≤ p.2 ∧ p.2 < p.1.width

instance (values : Values) : Decidable (Fits values) :=
  inferInstanceAs (Decidable (∀ p ∈ fieldValues values, 0 ≤ p.2 ∧ p.2 < p.1.width))

/-- What is searched for is a value that does not fit. -/
theorem misfits_eq_true_iff {field : Field} {value : ℤ} :
    (decide (value < 0) || decide ((field.width : ℤ) ≤ value)) = true ↔
      ¬ (0 ≤ value ∧ value < field.width) := by
  rw [Bool.or_eq_true, decide_eq_true_eq, decide_eq_true_eq]
  omega

theorem misfit?_eq_none_iff {values : Values} : misfit? values = none ↔ Fits values := by
  rw [misfit?, List.find?_eq_none, Fits]
  exact forall₂_congr fun p _ => (not_congr misfits_eq_true_iff).trans not_not

/-- A field is the first one whose value does not fit. -/
def FirstMisfit (values : Values) (field : Field) (value : ℤ) : Prop :=
  ∃ before after, fieldValues values = before ++ (field, value) :: after
    ∧ (∀ p ∈ before, 0 ≤ p.2 ∧ p.2 < p.1.width) ∧ ¬ (0 ≤ value ∧ value < field.width)

theorem misfit?_eq_some_iff {values : Values} {field : Field} {value : ℤ} :
    misfit? values = some (field, value) ↔ FirstMisfit values field value := by
  have hfit : ∀ p : Field × ℤ, (!(decide (p.2 < 0) || decide ((p.1.width : ℤ) ≤ p.2))) = true ↔
      0 ≤ p.2 ∧ p.2 < p.1.width := by
    intro p
    rw [Bool.not_eq_true', ← Bool.not_eq_true, misfits_eq_true_iff, not_not]
  rw [misfit?, List.find?_eq_some_iff_append, FirstMisfit]
  constructor
  · rintro ⟨hvalue, before, after, hfields, hbefore⟩
    exact ⟨before, after, hfields, fun p hp => (hfit p).mp (hbefore p hp),
      misfits_eq_true_iff.mp hvalue⟩
  · rintro ⟨before, after, hfields, hbefore, hvalue⟩
    exact ⟨misfits_eq_true_iff.mpr hvalue, before, after, hfields,
      fun p hp => (hfit p).mpr (hbefore p hp)⟩

theorem Fits.bounds {values : Values} (h : Fits values) {a : ℕ} (ha : a < 3) :
    0 ≤ values.getD a 0 ∧ values.getD a 0 < (Field.ofIndex a).width := by
  have hmem : (Field.ofIndex a, values.getD a 0) ∈ fieldValues values := by
    rcases a with _ | _ | _ | a
    · simp [fieldValues, Field.ofIndex]
    · simp [fieldValues, Field.ofIndex]
    · simp [fieldValues, Field.ofIndex]
    · omega
  exact h _ hmem

/-! ## Making a state -/

/-- **A state is made of any values, but strictly only of those that fit.** -/
theorem ofValues_eq_ok_iff {overflow : Overflow} {object : Option ℕ} {values : Values}
    {i : Instruction} : ofValues overflow object values = .ok i
      ↔ (overflow = .strict → Fits values) ∧ i = truncated values := by
  unfold ofValues
  rw [← misfit?_eq_none_iff]
  cases overflow with
  | wrap => simp [eq_comm]
  | strict =>
      rcases misfit? values with _ | ⟨field, value⟩
      · simp [eq_comm]
      · simp

/-- **A state is refused strictly, for the first value that does not fit.** -/
theorem ofValues_eq_error_iff {overflow : Overflow} {object : Option ℕ} {values : Values}
    {e : Failure} : ofValues overflow object values = .error e
      ↔ overflow = .strict ∧ ∃ field value, misfit? values = some (field, value)
        ∧ e = .fieldRange object field value := by
  unfold ofValues
  cases overflow with
  | wrap => simp
  | strict =>
      rcases misfit? values with _ | ⟨field, value⟩
      · simp
      · simp [eq_comm]

/-! ## What a state shows -/

/-- The values that the state instruction for given values shows. -/
def fieldsOf (values : Values) : Values :=
  [values.getD 0 0 % 512, values.getD 1 0 % 256, values.getD 2 0 % 32]

/-- The registers of the instruction for given values hold what it shows. -/
theorem exists_truncated (values : Values) : ∃ x y angle, truncated values = .state x y angle
    ∧ [(x.toNat : ℤ), (y.toNat : ℤ), (angle.toNat : ℤ)] = fieldsOf values := by
  refine ⟨_, _, _, rfl, ?_⟩
  rw [UInt16.toNat_ofNat', UInt8.toNat_ofNat', UInt8.toNat_ofNat', fieldsOf]
  congr 1
  · omega
  · congr 1
    · omega
    · congr 1
      omega

/-- A field shows the value of its attribute up to multiples of its width. -/
theorem fieldsOf_modEq (values : Values) {a : ℕ} (ha : a < 3) :
    (fieldsOf values).getD a 0 ≡ values.getD a 0 [ZMOD (Field.ofIndex a).width] := by
  rcases a with _ | _ | _ | a
  · exact Int.mod_modEq _ _
  · exact Int.mod_modEq _ _
  · exact Int.mod_modEq _ _
  · omega

/-- A field shows a value that fits as it is. -/
theorem fieldsOf_of_fits {values : Values} (h : Fits values) {a : ℕ} (ha : a < 3) :
    (fieldsOf values).getD a 0 = values.getD a 0 := by
  obtain ⟨hlow, hhigh⟩ := h.bounds ha
  rcases a with _ | _ | _ | a
  · exact Int.emod_eq_of_lt hlow hhigh
  · exact Int.emod_eq_of_lt hlow hhigh
  · exact Int.emod_eq_of_lt hlow hhigh
  · omega

/-! ## Fields fit the encoding -/

theorem isCanonical_truncated (values : Values) : (truncated values).IsCanonical := by
  constructor
  · rw [UInt16.toNat_ofNat']
    omega
  · rw [UInt8.toNat_ofNat']
    omega

theorem ofIndex_eq_ok {index : ℕ} (h : index < 128) :
    ofIndex index = .ok (.delta (UInt8.ofNat index)) ∧ (UInt8.ofNat index).toNat = index := by
  refine ⟨if_pos (Nat.le_of_lt_succ h), ?_⟩
  rw [UInt8.toNat_ofNat']
  omega

theorem exists_eq_sleep_of_mem_sleeps {frames : ℕ} {i : Instruction} (h : i ∈ sleeps frames) :
    ∃ n, i = .sleep n := by
  rw [sleeps, List.mem_append] at h
  rcases h with h | h
  · exact ⟨_, List.eq_of_mem_replicate h⟩
  · split_ifs at h
    · cases h
    · exact ⟨_, List.mem_singleton.mp h⟩

theorem isCanonical_of_mem_sleeps {frames : ℕ} {i : Instruction} (h : i ∈ sleeps frames) :
    i.IsCanonical := by
  have hlt : frames % maxSleep < 63 := Nat.mod_lt _ (by decide)
  rw [sleeps, List.mem_append] at h
  rcases h with h | h
  · rw [List.eq_of_mem_replicate h]
    decide
  · split_ifs at h with hzero
    · cases h
    · rw [List.mem_singleton.mp h, IsCanonical, UInt8.toNat_ofNat']
      omega

end Instruction

end DeltaScript
