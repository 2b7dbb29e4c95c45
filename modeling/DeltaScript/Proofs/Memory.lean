import Mathlib
import DeltaScript.Playback.Memory

/-!
# What is loaded can be read back

Segments that share no address can be loaded in any order: each of them is found in memory
afterwards, whatever was there before.

* `Segment.Apart` — two segments share no address.
* `Memory.byte_load`, `Memory.byte_load_of_outside` — one segment: its bytes are found, and nothing
  else changes.
* `Memory.bytes_loadAll` — **any stretch of any of the segments is found where it was loaded.**
* `Memory.bytes_add` — what is read is read in parts.
* `wordOf_wordBytes`, `Memory.word_of_bytes` — words are read back from their two bytes.
-/

namespace DeltaScript

/-- Two segments share no address. -/
def Segment.Apart (a b : Segment) : Prop :=
  a.stop ≤ b.address.toNat ∨ b.stop ≤ a.address.toNat

/-- A word is read back from its low and its high byte. -/
theorem wordOf_wordBytes (w : UInt16) : wordOf w.toUInt8 (w / 256).toUInt8 = w := by
  apply UInt16.toNat_inj.mp
  have hw := w.toNat_lt
  simp only [wordOf, UInt16.toNat_add, UInt16.toNat_mul, UInt8.toNat_toUInt16, UInt16.toNat_toUInt8,
    UInt16.toNat_div, UInt16.reduceToNat, Nat.reducePow] at *
  omega

namespace Memory

/-! ## One segment -/

theorem toNat_ofNat_position {position : ℕ} (h : position < addressSpace) :
    (UInt16.ofNat position).toNat = position := by
  rw [UInt16.toNat_ofNat']
  exact Nat.mod_eq_of_lt h

/-- The bytes of a segment are found from its address on. -/
theorem byte_load (m : Memory) {s : Segment} (hs : s.stop ≤ addressSpace) {k : ℕ}
    (hk : k < s.bytes.length) : (m.load s).byte (s.address.toNat + k) = s.bytes[k] := by
  have hposition : (UInt16.ofNat (s.address.toNat + k)).toNat = s.address.toNat + k :=
    toNat_ofNat_position (by simp only [Segment.stop] at hs; omega)
  refine load_of_le (UInt16.le_iff_toNat_le.mpr (by omega)) ?_
  rw [hposition, Nat.add_sub_cancel_left]
  exact List.getElem?_eq_getElem hk

theorem byte_load_of_outside (m : Memory) {s : Segment} {position : ℕ}
    (hspace : position < addressSpace)
    (h : position < s.address.toNat ∨ s.stop ≤ position) :
    (m.load s).byte position = m.byte position := by
  have hposition := toNat_ofNat_position hspace
  rcases h with hbefore | hbehind
  · exact load_of_lt (UInt16.lt_iff_toNat_lt.mpr (by omega))
  · exact load_of_stop_le (by omega)

/-! ## Segments one after the other -/

/-- Outside all segments nothing changes. -/
theorem byte_loadAll_of_outside (m : Memory) {segments : List Segment} {position : ℕ}
    (hspace : position < addressSpace)
    (h : ∀ s ∈ segments, position < s.address.toNat ∨ s.stop ≤ position) :
    (m.loadAll segments).byte position = m.byte position := by
  induction segments generalizing m with
  | nil => rfl
  | cons s rest ih =>
      change ((m.load s).loadAll rest).byte position = _
      rw [ih (m.load s) fun t ht => h t (List.mem_cons_of_mem s ht)]
      exact byte_load_of_outside m hspace (h s (by simp))

/-- **Each byte of each segment is found where it was loaded**: what is loaded later leaves it
alone. -/
theorem byte_loadAll (m : Memory) {segments : List Segment}
    (hstop : ∀ s ∈ segments, s.stop ≤ addressSpace) (hapart : segments.Pairwise Segment.Apart)
    {s : Segment} (hs : s ∈ segments) {k : ℕ} (hk : k < s.bytes.length) :
    (m.loadAll segments).byte (s.address.toNat + k) = s.bytes[k] := by
  induction segments generalizing m with
  | nil => cases hs
  | cons a rest ih =>
      obtain ⟨hfirst, hrest⟩ := List.pairwise_cons.mp hapart
      change ((m.load a).loadAll rest).byte _ = _
      rcases List.mem_cons.mp hs with rfl | hs
      · have hstop := hstop s (by simp)
        rw [byte_loadAll_of_outside, byte_load m hstop hk]
        · simp only [Segment.stop] at hstop
          omega
        · intro t ht
          have := hfirst t ht
          simp only [Segment.Apart, Segment.stop] at this ⊢
          omega
      · exact ih (m.load a) (fun t ht => hstop t (List.mem_cons_of_mem a ht)) hrest hs

/-! ## Reading several bytes -/

@[simp] theorem length_bytes (m : Memory) (position length : ℕ) :
    (m.bytes position length).length = length := by
  simp [bytes]

@[simp] theorem getElem_bytes (m : Memory) {position length k : ℕ}
    (hk : k < (m.bytes position length).length) :
    (m.bytes position length)[k] = m.byte (position + k) := by
  simp [bytes]

theorem bytes_add (m : Memory) (position a b : ℕ) :
    m.bytes position (a + b) = m.bytes position a ++ m.bytes (position + a) b := by
  simp [bytes, List.range_add, Nat.add_assoc]

/-- A part of what is read is read by itself. -/
theorem bytes_of_append {m : Memory} {position length : ℕ} {front back : List UInt8}
    (h : m.bytes position length = front ++ back) :
    m.bytes position front.length = front ∧
      m.bytes (position + front.length) back.length = back := by
  have hlength : length = front.length + back.length := by
    rw [← length_bytes m position length, h, List.length_append]
  rw [hlength, bytes_add] at h
  exact List.append_inj h (by simp)

theorem byte_of_bytes {m : Memory} {position length : ℕ} {bytes : List UInt8}
    (h : m.bytes position length = bytes) {k : ℕ} (hk : k < bytes.length) :
    m.byte (position + k) = bytes[k] := by
  subst h
  exact (getElem_bytes m hk).symm

/-- **Words one after the other are read back.** -/
theorem word_of_bytes {m : Memory} {position length : ℕ} {words : List UInt16}
    (h : m.bytes position length = words.flatMap wordBytes) {n : ℕ} (hn : n < words.length) :
    m.word (position + 2 * n) = words[n] := by
  induction words generalizing position length n with
  | nil => cases hn
  | cons w words ih =>
      obtain ⟨hword, hrest⟩ := bytes_of_append h
      cases n with
      | zero =>
          have hlow := byte_of_bytes hword (k := 0) (by simp [wordBytes])
          have hhigh := byte_of_bytes hword (k := 1) (by simp [wordBytes])
          change wordOf (m.byte (position + 0)) (m.byte (position + 1)) = w
          rw [hlow, hhigh]
          exact wordOf_wordBytes w
      | succ n =>
          have hword := ih hrest (Nat.lt_of_succ_lt_succ hn)
          have htwo : position + 2 * (n + 1) = position + (wordBytes w).length + 2 * n := by
            simp only [wordBytes, List.length_cons, List.length_nil]
            omega
          rw [htwo]
          exact hword

/-- **Any stretch of any of the segments is found where it was loaded.** -/
theorem bytes_loadAll (m : Memory) {segments : List Segment}
    (hstop : ∀ s ∈ segments, s.stop ≤ addressSpace) (hapart : segments.Pairwise Segment.Apart)
    {s : Segment} (hs : s ∈ segments) {before middle behind : List UInt8}
    (hbytes : s.bytes = before ++ middle ++ behind) :
    (m.loadAll segments).bytes (s.address.toNat + before.length) middle.length = middle := by
  have hall : (m.loadAll segments).bytes s.address.toNat s.bytes.length = s.bytes := by
    apply List.ext_getElem (by simp)
    intro k _ hk
    rw [getElem_bytes]
    exact byte_loadAll m hstop hapart hs hk
  rw [hbytes] at hall
  have hfront := (bytes_of_append hall).1
  rw [List.length_append, bytes_add] at hfront
  exact (List.append_inj hfront (by simp)).2

end Memory

end DeltaScript
