import Mathlib
import DeltaScript.CommandLine.Program
import DeltaScript.Proofs.Stages

/-!
# What the flags of a command line ask for

Ranges and modulos are given for one attribute each, by its index, and may be given several times.
They are worked off one after the other, and **the last one that speaks of an attribute counts for
it.**

* `CommandLine.lastFor` — the last of the values given for an index.
* `CommandLine.Arguments.adjust_eq_ok_iff` — what changes in the attributes, by induction on what is
  given.
* `CommandLine.Arguments.configured` — the settings that are asked for, attribute by attribute.
* `CommandLine.Arguments.settings_eq_ok_iff` — **flags are refused only if there is no such
  attribute, and are all heeded otherwise.**
* `CommandLine.job_eq_ok_iff`, `CommandLine.ending_of_job` — which command lines are carried out.
-/

namespace DeltaScript.CommandLine

section Values

variable {α : Type}

/-- The values given for an index, in the order in which they are given. -/
def valuesFor (index : ℕ) (given : List (ℕ × α)) : List α :=
  (given.filter (·.1 == index)).map Prod.snd

/-- The last of the values given for an index. -/
def lastFor (index : ℕ) (given : List (ℕ × α)) : Option α :=
  (valuesFor index given).getLast?

@[simp] theorem valuesFor_cons (index i : ℕ) (value : α) (given : List (ℕ × α)) :
    valuesFor i ((index, value) :: given)
      = if index = i then value :: valuesFor i given else valuesFor i given := by
  by_cases h : index = i
  · simp [valuesFor, h]
  · simp [valuesFor, h]

end Values

namespace Arguments

variable {α : Type} {change : Attribute → α → Attribute}

/-- **What changes in the attributes**: each of them is changed by the values given for it, one
after the other. -/
theorem adjust_eq_ok_iff {attributes changed : List Attribute} {given : List (ℕ × α)} :
    adjust change attributes given = .ok changed ↔ (∀ g ∈ given, g.1 < attributes.length)
      ∧ changed = attributes.mapIdx fun i a => (valuesFor i given).foldl change a := by
  induction given generalizing attributes with
  | nil =>
      have hsame : attributes.mapIdx (fun i a => (valuesFor i ([] : List (ℕ × α))).foldl change a)
          = attributes := by
        apply List.ext_getElem (by simp)
        intro i hi hi'
        simp [valuesFor]
      rw [hsame]
      simp [adjust, eq_comm]
  | cons first rest ih =>
      obtain ⟨index, value⟩ := first
      rw [adjust, List.forall_mem_cons]
      cases hindex : attributes[index]? with
      | none =>
          have hle := List.getElem?_eq_none_iff.mp hindex
          simp [not_lt.mpr hle]
      | some a =>
          have hlt := (List.getElem?_eq_some_iff.mp hindex).1
          simp only [ih, List.length_set, hlt, true_and]
          -- the attribute that is changed first is changed by the others from there on
          have hset : (attributes.set index (change a value)).mapIdx
                (fun i a => (valuesFor i rest).foldl change a)
              = attributes.mapIdx
                fun i a => (valuesFor i ((index, value) :: rest)).foldl change a := by
            apply List.ext_getElem (by simp)
            intro i hi hi'
            have ha := (List.getElem?_eq_some_iff.mp hindex).2
            by_cases heq : index = i
            · subst heq
              simp [ha]
            · simp [heq]
          rw [hset]

/-- The settings that are asked for: the last range and the last modulo given for an attribute. -/
def configured (a : Arguments) : Settings where
  attributes := (List.range a.attributes).map fun i =>
    { range := (lastFor i a.ranges).getD .default, modulo := lastFor i a.modulos }
  sentinel := List.replicate a.attributes 0
  overflow := if a.strict then .strict else .wrap

theorem foldl_range (ranges : List DeltaRange) (a : Attribute) :
    ranges.foldl (fun a range => { a with range }) a
      = { a with range := ranges.getLast?.getD a.range } := by
  induction ranges generalizing a with
  | nil => rfl
  | cons range rest ih => simp [ih, List.getLast?_cons]

theorem foldl_modulo (modulos : List ℤ) (a : Attribute) :
    modulos.foldl (fun a m => { a with modulo := some m }) a
      = { a with modulo := modulos.getLast?.or a.modulo } := by
  induction modulos generalizing a with
  | nil => rfl
  | cons m rest ih => simp [ih, List.getLast?_cons]

/-- Working off ranges and modulos leads to the settings that are asked for. -/
theorem configured_eq (a : Arguments) : a.configured =
    { Settings.ofCount a.attributes with
      attributes := ((List.replicate a.attributes {}).mapIdx fun i b =>
        (valuesFor i a.ranges).foldl (fun b range => { b with range }) b).mapIdx fun i b =>
          (valuesFor i a.modulos).foldl (fun b m => { b with modulo := some m }) b
      overflow := if a.strict then .strict else .wrap } := by
  have hattributes : a.configured.attributes
      = ((List.replicate a.attributes {}).mapIdx fun i b =>
        (valuesFor i a.ranges).foldl (fun b range => { b with range }) b).mapIdx fun i b =>
          (valuesFor i a.modulos).foldl (fun b m => { b with modulo := some m }) b := by
    apply List.ext_getElem (by simp [configured])
    intro i hi hi'
    simp [configured, lastFor, foldl_range, foldl_modulo]
  rw [← hattributes]
  rfl

/-- **Flags are refused only if there is no such attribute, and are all heeded otherwise.** -/
theorem settings_eq_ok_iff {a : Arguments} {s : Settings} :
    a.settings = .ok s ↔ (∀ r ∈ a.ranges, r.1 < a.attributes)
      ∧ (∀ m ∈ a.modulos, m.1 < a.attributes) ∧ s = a.configured := by
  rw [settings]
  simp only [bind_eq_ok_iff, mapError_eq_ok_iff, adjust_eq_ok_iff]
  constructor
  · rintro ⟨_, ⟨hranges, rfl⟩, _, ⟨hmodulos, rfl⟩, h⟩
    refine ⟨by simpa using hranges, by simpa using hmodulos, ?_⟩
    rw [← Except.ok.inj h, configured_eq]
  · rintro ⟨hranges, hmodulos, rfl⟩
    refine ⟨_, ⟨by simpa using hranges, rfl⟩, _, ⟨by simpa using hmodulos, rfl⟩, ?_⟩
    rw [configured_eq]
    rfl

end Arguments

/-- **A command line is carried out if it is understood, its output has a format, and its flags
speak of attributes that there are.** -/
theorem job_eq_ok_iff {words : List String} {j : Job} :
    job words = .ok j ↔ parse words = .ok j.arguments ∧ j.arguments.format? = some j.format
      ∧ j.arguments.settings = .ok j.settings := by
  constructor
  · intro h
    rw [job] at h
    split at h
    · cases h
    · cases h
    · cases h
    · next hparse =>
        split at h
        · cases h
        · next hformat =>
            split at h
            · cases h
            · next hsettings =>
                cases h
                exact ⟨hparse, hformat, hsettings⟩
  · rintro ⟨hparse, hformat, hsettings⟩
    simp only [job, hparse, hformat, hsettings]

/-- A command line that is not carried out ends with code 2, unless the version is asked for. -/
theorem ending_of_job {words : List String} {o : Outcome} (h : job words = .error o) :
    o.ending = .exit 2 ∨ parse words = .error .version := by
  rw [job] at h
  split at h
  · cases h
    exact Or.inl rfl
  · cases h
    exact Or.inl rfl
  · exact Or.inr ‹_›
  · split at h
    · cases h
      exact Or.inl rfl
    · split at h
      · cases h
        exact Or.inl rfl
      · cases h

end DeltaScript.CommandLine
