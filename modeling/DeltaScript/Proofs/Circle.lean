import Mathlib
import DeltaScript.Attribute

/-!
# The shortest way round

`Attribute.wrap` turns a difference into the delta that is stored.  On a circle it takes the
shortest way round; elsewhere it keeps the difference, as far as 32 bits hold it.

* `Attribute.HasWordModulo` — the circle is no longer than a signed 32-bit integer can say, which is
  what the settings of the program are held in.
* `Attribute.wrap_eq` — on such a circle the cut to 32 bits changes nothing.
* `Attribute.wrap_modEq` — **the delta leads to the same point of the circle.**
* `Attribute.IsShortest`, `Attribute.isShortest` — no other integer within half a turn does; half a
  turn counts as forward.
* `Attribute.wrap_eq_of_word`, `Attribute.eq_zero_of_wrap_eq_zero` — what is kept where there is no
  circle.
* `Attribute.wrap_modEq_of_byte` — a delta that fits a signed byte is the difference itself, or
  leads to the same point of the circle.  Congruence modulo `0` is equality, so both are one
  statement.
* `Attribute.getElem?_deltas`, `Attribute.getD_deltas` — between two frames, each attribute has the
  delta for its own difference.
-/

namespace DeltaScript.Attribute

/-- The modulo of the attribute, if it has one, is a signed 32-bit integer. -/
def HasWordModulo (a : Attribute) : Prop :=
  ∀ m, a.modulo = some m → m ≤ 0x7FFFFFFF

/-- The length of the circle; `0` where there is none. -/
def circle (a : Attribute) : ℤ :=
  a.modulo.getD 0

variable {a : Attribute} {m : ℤ}

/-- On a circle of at most 32 bits the cut to 32 bits changes nothing. -/
theorem wrap_eq (hm : a.modulo = some m) (hpos : 0 < m) (hword : m ≤ 0x7FFFFFFF) (d : ℤ) :
    a.wrap d = if m / 2 < d % m then d % m - m else d % m := by
  have hlow : 0 ≤ d % m := Int.emod_nonneg d hpos.ne'
  have hhigh : d % m < m := Int.emod_lt_of_pos d hpos
  have hhalf : m.tdiv 2 = m / 2 := Int.tdiv_eq_ediv_of_nonneg hpos.le
  simp only [wrap, hm, hhalf]
  apply Int.bmod_eq_of_le
  · split <;> omega
  · split <;> omega

/-- **The delta leads to the same point of the circle as the difference.** -/
theorem wrap_modEq (hm : a.modulo = some m) (hpos : 0 < m) (hword : m ≤ 0x7FFFFFFF) (d : ℤ) :
    a.wrap d ≡ d [ZMOD m] := by
  rw [wrap_eq hm hpos hword]
  split
  · rw [Int.ModEq, Int.sub_emod_right, Int.emod_emod]
  · exact Int.mod_modEq d m

/-- The delta for a difference is the shortest way round a circle of a given length. -/
structure IsShortest (a : Attribute) (m d : ℤ) : Prop where
  /-- The remainder that the delta is made of exists. -/
  exists_remainder : a.wrap? d = some (a.wrap d)
  modEq : a.wrap d ≡ d [ZMOD m]
  /-- Half a turn backward is too far. -/
  neg_lt : -m < 2 * a.wrap d
  le : 2 * a.wrap d ≤ m
  unique : ∀ w, w ≡ d [ZMOD m] → -m < 2 * w → 2 * w ≤ m → w = a.wrap d
  /-- The delta is what it was before the cut to 32 bits. -/
  uncut : a.wrap d = if m.tdiv 2 < d % m then d % m - m else d % m

/-- Two integers that lead to the same point of a circle, both within half a turn, are equal. -/
theorem eq_of_modEq {v w : ℤ} (h : v ≡ w [ZMOD m]) (hv : -m < 2 * v) (hv' : 2 * v ≤ m)
    (hw : -m < 2 * w) (hw' : 2 * w ≤ m) : v = w := by
  have hzero : w - v = 0 := Int.eq_zero_of_abs_lt_dvd h.dvd (abs_lt.mpr ⟨by omega, by omega⟩)
  omega

/-- **On a circle of at most 32 bits the delta is the shortest way round.** -/
theorem isShortest (hm : a.modulo = some m) (hpos : 0 < m) (hword : m ≤ 0x7FFFFFFF) (d : ℤ) :
    a.IsShortest m d := by
  have hwrap := wrap_eq hm hpos hword d
  have hmodEq := wrap_modEq hm hpos hword d
  have hlow : 0 ≤ d % m := Int.emod_nonneg d hpos.ne'
  have hhigh : d % m < m := Int.emod_lt_of_pos d hpos
  have hneg : -m < 2 * a.wrap d := by rw [hwrap]; split <;> omega
  have hle : 2 * a.wrap d ≤ m := by rw [hwrap]; split <;> omega
  constructor
  case exists_remainder =>
    have hzero : m ≠ 0 := by omega
    have hminus : m ≠ -1 := by omega
    simp [wrap?, hasRemainder, hm, hzero, hminus]
  case modEq => exact hmodEq
  case neg_lt => exact hneg
  case le => exact hle
  case unique =>
    intro w hw hwneg hwle
    exact eq_of_modEq (hw.trans hmodEq.symm) hwneg hwle hneg hle
  case uncut =>
    rw [Int.tdiv_eq_ediv_of_nonneg hpos.le]
    exact hwrap

/-- Without a circle, a difference of 32 bits is kept. -/
theorem wrap_eq_of_word (hm : a.modulo = none) {d : ℤ} (hlow : -0x80000000 ≤ d)
    (hhigh : d ≤ 0x7FFFFFFF) : a.wrap d = d := by
  simp only [wrap, hm, clamp32]
  omega

/-- Without a circle, only where nothing changed is there no delta. -/
theorem eq_zero_of_wrap_eq_zero (hm : a.modulo = none) {d : ℤ} (h : a.wrap d = 0) : d = 0 := by
  simp only [wrap, hm, clamp32] at h
  omega

/-- Without a circle, a delta that fits a signed byte was not clamped. -/
theorem wrap_eq_of_byte (hm : a.modulo = none) {d : ℤ} (hlow : -128 ≤ a.wrap d)
    (hhigh : a.wrap d ≤ 127) : a.wrap d = d := by
  simp only [wrap, hm, clamp32] at *
  omega

/-- A delta that fits a signed byte leads where the difference does. -/
theorem wrap_modEq_of_byte (hpos : ∀ m, a.modulo = some m → 0 < m) (hword : a.HasWordModulo) {d : ℤ}
    (hlow : -128 ≤ a.wrap d) (hhigh : a.wrap d ≤ 127) : a.wrap d ≡ d [ZMOD a.circle] := by
  cases hm : a.modulo with
  | none => rw [wrap_eq_of_byte hm hlow hhigh]
  | some m =>
      have hcircle : a.circle = m := by simp [circle, hm]
      rw [hcircle]
      exact wrap_modEq hm (hpos m hm) (hword m hm) d

/-! ## Deltas of frames -/

variable {attributes : List Attribute} {current next : Values} {i : ℕ}

/-- Attribute by attribute, the delta between two frames is the difference, wrapped. -/
theorem getElem?_deltas {x y : ℤ} (ha : attributes[i]? = some a) (hx : current[i]? = some x)
    (hy : next[i]? = some y) : (deltas attributes current next)[i]? = some (a.wrap (y - x)) := by
  simp [deltas, List.getElem?_zip_eq_some, ha, hx, hy]

theorem getD_deltas (hcurrent : current.length = attributes.length)
    (hnext : next.length = attributes.length) (hi : i < attributes.length) :
    (deltas attributes current next).getD i 0
      = attributes[i].wrap (next.getD i 0 - current.getD i 0) := by
  have hc : i < current.length := by omega
  have hn : i < next.length := by omega
  have hdelta := getElem?_deltas (List.getElem?_eq_getElem hi) (List.getElem?_eq_getElem hc)
    (List.getElem?_eq_getElem hn)
  simp [List.getD_eq_getElem?_getD, hdelta, hc, hn]

end DeltaScript.Attribute
