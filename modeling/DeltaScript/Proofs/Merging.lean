import Mathlib
import DeltaScript.Proofs.Image
import DeltaScript.Proofs.Layout

/-!
# Merged segments

The segments of a layout can be written one by one, or merged into one segment with the gaps filled.
The merged segment holds the same bytes at the same addresses.

* `Image.Records.exists_segment` — the segment that is taken out of an image.
* `Layout.segments_apart` — the segments of a layout share no address, so that
  `Image.Records.injectAll` **never refuses** them.
* `Segment.Merges` — what is expected of a merged segment; `Image.Records.exists_merged`.
* `Layout.merges_of_allocate` — every layout can be merged.
-/

namespace DeltaScript

/-! ## Taking a segment out of an image -/

namespace Chunk.IsPartition

variable {chunks : List Chunk} {injections : List Injection}
  {parts : List (Chunk × List Injection)}

theorem exists_first (h : IsPartition chunks injections parts) {c : Chunk} (hc : c ∈ chunks) :
    ∃ i ∈ injections, i.address.toNat = c.first := by
  obtain ⟨run, hpart, hmade⟩ := h.exists_run hc
  obtain ⟨i, hi, hlow, -⟩ :=
    hmade.spans.exists_covers_iff.mpr ⟨le_rfl, Nat.lt_succ_of_le hmade.first_le_last⟩
  exact ⟨i, h.mem_injections hpart hi, le_antisymm hlow (hmade.spans.within hi).1⟩

theorem exists_last (h : IsPartition chunks injections parts) {c : Chunk} (hc : c ∈ chunks) :
    ∃ i ∈ injections, i.stop = c.last + 1 := by
  obtain ⟨run, hpart, hmade⟩ := h.exists_run hc
  obtain ⟨i, hi, -, hhigh⟩ :=
    hmade.spans.exists_covers_iff.mpr ⟨hmade.first_le_last, Nat.lt_succ_self c.last⟩
  exact ⟨i, h.mem_injections hpart hi, le_antisymm (hmade.spans.within hi).2.2 hhigh⟩

/-- Every injection lies in a chunk. -/
theorem exists_enclosing (h : IsPartition chunks injections parts) {i : Injection}
    (hi : i ∈ injections) : ∃ c ∈ chunks, c.first ≤ i.address.toNat ∧ i.stop ≤ c.last + 1 := by
  obtain ⟨part, hpart, hi⟩ := List.mem_flatMap.mp (h.injections_perm.mem_iff.mp hi)
  obtain ⟨hlow, -, hhigh⟩ := (h.made part hpart).spans.within hi
  exact ⟨part.1, h.chunks_perm.mem_iff.mpr (List.mem_map_of_mem hpart), hlow, hhigh⟩

end Chunk.IsPartition

namespace Image

variable {m : Image} {injections : List Injection}

/-- **What is taken out of an image**: it starts where the lowest injection starts, stops where the
highest stops, and holds the byte at each address between, or the one that stands for none. -/
theorem Records.exists_segment (h : m.Records injections) (hne : injections ≠ []) :
    ∃ merged, m.segment? = some merged
      ∧ ((∃ i ∈ injections, i.address = merged.address)
        ∧ ∀ i ∈ injections, merged.address.toNat ≤ i.address.toNat)
      ∧ ((∃ i ∈ injections, i.stop = merged.stop) ∧ ∀ i ∈ injections, i.stop ≤ merged.stop)
      ∧ ∀ address, merged.address.toNat ≤ address → address < merged.stop →
        merged.bytes[address - merged.address.toNat]? = some ((m.byte? address).getD m.fill) := by
  obtain ⟨parts, hparts⟩ := h.exists_parts
  have hchunks : m.chunks ≠ [] := by
    intro hnil
    obtain ⟨i, hi⟩ := List.exists_mem_of_ne_nil injections hne
    obtain ⟨c, hc, -⟩ := hparts.exists_enclosing hi
    simp [hnil] at hc
  obtain ⟨low, hlow⟩ : ∃ low, m.lowest? = some low := by
    rw [← Option.ne_none_iff_exists', lowest?, ne_eq, List.min?_eq_none_iff, List.map_eq_nil_iff]
    exact hchunks
  obtain ⟨high, hhigh⟩ : ∃ high, m.highest? = some high := by
    rw [← Option.ne_none_iff_exists', highest?, ne_eq, List.max?_eq_none_iff, List.map_eq_nil_iff]
    exact hchunks
  have hsegment : m.segment? = some ⟨addressAt low,
      (List.range' low (high + 1 - low)).map fun address => (m.byte? address).getD m.fill⟩ := by
    rw [segment?, hlow, hhigh]
    rfl
  obtain ⟨hlowMem, hlowest⟩ := List.min?_eq_some_iff.mp hlow
  obtain ⟨hhighMem, hhighest⟩ := List.max?_eq_some_iff.mp hhigh
  obtain ⟨c, hc, rfl⟩ := List.mem_map.mp hlowMem
  obtain ⟨d, hd, rfl⟩ := List.mem_map.mp hhighMem
  obtain ⟨i, hi, hfirst⟩ := hparts.exists_first hc
  obtain ⟨j, hj, hlast⟩ := hparts.exists_last hd
  -- the address of the segment is that of an injection, and is not cut off
  have haddress : addressAt c.first = i.address := by
    apply UInt16.toNat_inj.mp
    have hword := i.address.toNat_lt
    rw [toNat_addressAt, ← hfirst]
    omega
  have hspan : c.first ≤ d.last := by
    have hle := hparts.first_le_last c hc
    exact hle.trans (hhighest _ (List.mem_map_of_mem hc))
  refine ⟨_, hsegment, ⟨⟨i, hi, haddress.symm⟩, ?_⟩, ⟨⟨j, hj, ?_⟩, ?_⟩, ?_⟩
  · intro k hk
    obtain ⟨e, he, hbefore, -⟩ := hparts.exists_enclosing hk
    have := hlowest _ (List.mem_map_of_mem he)
    simp only [haddress, hfirst]
    omega
  · simp only [Segment.stop, haddress, hfirst, List.length_map, List.length_range', hlast]
    omega
  · intro k hk
    obtain ⟨e, he, -, hbehind⟩ := hparts.exists_enclosing hk
    have := hhighest _ (List.mem_map_of_mem he)
    simp only [Segment.stop, haddress, hfirst, List.length_map, List.length_range']
    omega
  · intro address hbefore hbehind
    simp only [Segment.stop, haddress, hfirst, List.length_map, List.length_range']
      at hbefore hbehind
    obtain ⟨k, rfl⟩ := Nat.exists_eq_add_of_le hbefore
    rw [haddress, hfirst, Nat.add_sub_cancel_left, List.getElem?_map, List.getElem?_range'
      (by omega), Nat.one_mul]
    rfl

/-! ## Injecting segments -/

/-- A segment as labelled data. -/
def injectionOf (s : Segment) : Injection :=
  ⟨segmentLabel s, s.address, s.bytes⟩

theorem apart_injectionOf {a b : Segment} (h : a.Apart b) :
    (injectionOf a).Apart (injectionOf b) :=
  Injection.apart_of_beside h

/-- **Segments that share no address are never refused**, by induction on the segments. -/
theorem Records.injectAll (h : m.Records injections) {segments : List Segment}
    (hne : ∀ s ∈ segments, s.bytes ≠ []) (hstop : ∀ s ∈ segments, s.stop ≤ addressSpace)
    (hapart : segments.Pairwise Segment.Apart)
    (hothers : ∀ s ∈ segments, ∀ j ∈ injections, (injectionOf s).Apart j) :
    ∃ m', m.injectAll segments = .ok m' ∧ m'.Records (injections ++ segments.map injectionOf)
      ∧ m'.fill = m.fill := by
  induction segments generalizing m injections with
  | nil => exact ⟨m, rfl, by simpa using h, rfl⟩
  | cons s rest ih =>
      obtain ⟨hs, hrest⟩ := List.pairwise_cons.mp hapart
      obtain ⟨hne, hneRest⟩ := List.forall_mem_cons.mp hne
      obtain ⟨hstop, hstopRest⟩ := List.forall_mem_cons.mp hstop
      obtain ⟨hself, hothers⟩ := List.forall_mem_cons.mp hothers
      obtain ⟨next, hnext⟩ := (h.exists_inject_iff (injectionOf s)).mpr (Or.inr ⟨hstop, hself⟩)
      obtain ⟨hrecords, hfill⟩ := h.inject hne hnext
      -- what is still to come shares no address with what is held, the segment just injected too
      have hlater : ∀ t ∈ rest, ∀ j ∈ injectionOf s :: injections, (injectionOf t).Apart j := by
        intro t ht
        exact List.forall_mem_cons.mpr ⟨(apart_injectionOf (hs t ht)).symm, hothers t ht⟩
      obtain ⟨m', hm', hrecords', hfill'⟩ := ih hrecords hneRest hstopRest hrest hlater
      refine ⟨m', ?_, hrecords'.of_perm List.perm_middle.symm, hfill'.trans hfill⟩
      exact bind_eq_ok_iff.mpr ⟨next, hnext, hm'⟩

end Image

/-! ## Layouts -/

/-- One segment holds what several hold. -/
structure Segment.Merges (merged : Segment) (segments : List Segment) (fill : UInt8) : Prop where
  ne_nil : merged.bytes ≠ []
  /-- It starts where the lowest of them starts. -/
  lowest : (∃ s ∈ segments, s.address = merged.address)
    ∧ ∀ s ∈ segments, merged.address.toNat ≤ s.address.toNat
  /-- It stops where the highest of them stops. -/
  highest : (∃ s ∈ segments, s.stop = merged.stop) ∧ ∀ s ∈ segments, s.stop ≤ merged.stop
  /-- Each byte of each of them is found at its address. -/
  bytes : ∀ s ∈ segments, ∀ k (hk : k < s.bytes.length),
    merged.bytes[s.address.toNat + k - merged.address.toNat]? = some s.bytes[k]
  /-- Everything between is filled. -/
  gaps : ∀ address, merged.address.toNat ≤ address → address < merged.stop →
    (∀ s ∈ segments, address < s.address.toNat ∨ s.stop ≤ address) →
    merged.bytes[address - merged.address.toNat]? = some fill

/-- A single segment is merged into itself. -/
theorem Segment.Merges.eq_of_singleton {merged s : Segment} {fill : UInt8}
    (h : merged.Merges [s] fill) : merged = s := by
  obtain ⟨⟨t, ht, haddress⟩, -⟩ := h.lowest
  obtain ⟨⟨u, hu, hstop⟩, -⟩ := h.highest
  rw [List.mem_singleton.mp ht] at haddress
  rw [List.mem_singleton.mp hu] at hstop
  have hlength : merged.bytes.length = s.bytes.length := by
    simp only [Segment.stop, haddress] at hstop
    omega
  have hbytes : merged.bytes = s.bytes := by
    refine List.ext_getElem hlength ?_
    intro k hk hk'
    have hfound := h.bytes s List.mem_cons_self k hk'
    rw [haddress, Nat.add_sub_cancel_left, List.getElem?_eq_getElem hk] at hfound
    exact Option.some.inj hfound
  obtain ⟨address, bytes⟩ := s
  obtain ⟨_, _⟩ := merged
  simp only at haddress hbytes
  rw [haddress, hbytes]

/-- **An image that holds segments and nothing else is taken out as their merged segment.** -/
theorem Image.Records.exists_merged {m : Image} {segments : List Segment}
    (h : m.Records (segments.map injectionOf)) (hsegments : segments ≠ [])
    (hne : ∀ s ∈ segments, s.bytes ≠ []) :
    ∃ merged, m.segment? = some merged ∧ merged.Merges segments m.fill := by
  obtain ⟨merged, hmerged, ⟨⟨_, hi, hlow⟩, hlowest⟩, ⟨⟨_, hj, hhigh⟩, hhighest⟩, hbytes⟩ :=
    h.exists_segment (by simpa using hsegments)
  obtain ⟨s, hs, rfl⟩ := List.mem_map.mp hi
  obtain ⟨t, ht, rfl⟩ := List.mem_map.mp hj
  have hlowest : ∀ u ∈ segments, merged.address.toNat ≤ u.address.toNat := by
    intro u hu
    exact hlowest _ (List.mem_map_of_mem hu)
  have hhighest : ∀ u ∈ segments, u.stop ≤ merged.stop := by
    intro u hu
    exact hhighest _ (List.mem_map_of_mem hu)
  refine ⟨merged, hmerged, ?_, ⟨⟨s, hs, hlow⟩, hlowest⟩, ⟨⟨t, ht, hhigh⟩, hhighest⟩, ?_, ?_⟩
  · intro hnil
    have hpos := List.length_pos_iff.mpr (hne s hs)
    have hlow := hlowest s hs
    have hhigh := hhighest s hs
    simp only [Segment.stop, hnil, List.length_nil] at hhigh
    omega
  · intro u hu k hk
    have hlow := hlowest u hu
    have hhigh := hhighest u hu
    have hbyte : m.byte? (u.address.toNat + k) = some u.bytes[k] := by
      refine (h.byte?_eq_some_iff _ _).mpr ⟨_, List.mem_map_of_mem hu, ?_⟩
      rw [Injection.byte?, injectionOf, if_pos (Nat.le_add_right ..), Nat.add_sub_cancel_left]
      exact List.getElem?_eq_getElem hk
    have hbehind : u.address.toNat + k < merged.stop := by
      simp only [Segment.stop] at hhigh ⊢
      omega
    rw [hbytes _ (by omega) hbehind, hbyte]
    rfl
  · intro address hbefore hbehind hfree
    have hbyte : m.byte? address = none := by
      rw [← Option.not_isSome_iff_eq_none, h.isSome_byte?_iff]
      rintro ⟨i, hi, hcovers⟩
      obtain ⟨u, hu, rfl⟩ := List.mem_map.mp hi
      have hcovers : u.address.toNat ≤ address ∧ address < u.stop := hcovers
      have hfree := hfree u hu
      omega
    rw [hbytes address hbefore hbehind, hbyte]
    rfl

namespace Layout

variable {blocks : Blocks} {mode : Mode} {l : Layout}

/-- **The segments of a layout are not empty, end within the address space, and share no
address.** -/
theorem segments_apart (h : allocate blocks mode = .ok l) :
    l.segments ≠ [] ∧ (∀ s ∈ l.segments, s.bytes ≠ []) ∧ (∀ s ∈ l.segments, s.stop ≤ addressSpace)
      ∧ l.segments.Pairwise Segment.Apart := by
  have himage := isImage_of_allocate h
  obtain ⟨-, placements, addresses, hplace, rfl⟩ := allocate_eq_ok_iff.mp h
  obtain ⟨hbins, placed, number, used, harranged, -, rfl, rfl⟩ := arranged_of_place hplace
  have hheader := length_headerOf blocks (addressIn (placed.map (Placement.renumber number)))
  refine ⟨?_, ?_, ?_, harranged.pairwise_segments hheader hbins.apart⟩
  · obtain ⟨p, hp, -⟩ := List.mem_map.mp
      (himage.placed.mem_iff.mpr (List.mem_cons_self : .header ∈ blocks.all))
    exact List.ne_nil_of_length_pos (Nat.zero_lt_of_lt (himage.segment_lt p hp))
  · obtain ⟨used', -, hall⟩ := himage.segments
    obtain ⟨hlength, hall⟩ := List.forall₂_iff_get.mp hall
    intro s hs
    obtain ⟨k, hk, rfl⟩ := List.mem_iff_getElem.mp hs
    exact (hall k (hlength ▸ hk) hk).2.1
  · intro s hs
    exact harranged.stop_le_of_mem_segments hheader hbins.stop_le hs

/-- **Every layout can be merged**, whatever the mode (the ends of its bins are machine words), and a
layout with one segment is merged into that. -/
theorem merges_of_allocate (h : allocate blocks mode = .ok l) (fill : UInt8) :
    ∃ m merged, Image.ofLayout l fill = .ok m ∧ m.segment? = some merged
      ∧ merged.Merges l.segments fill ∧ ∀ s, l.segments = [s] → merged = s := by
  obtain ⟨hsegments, hne, hstop, hapart⟩ := segments_apart h
  obtain ⟨m, hm, hrecords, hfill⟩ :=
    (Image.records_empty fill).injectAll hne hstop hapart (by simp)
  rw [List.nil_append] at hrecords
  obtain ⟨merged, hmerged, hmerges⟩ := hrecords.exists_merged hsegments hne
  rw [hfill] at hmerges
  refine ⟨m, merged, hm, hmerged, hmerges, ?_⟩
  intro s hs
  rw [hs] at hmerges
  exact hmerges.eq_of_singleton

end Layout

/-! ## Bins that are out of order

The first bin lies behind the second, so that the merged segment starts with the second segment, and
the gap between the two is filled.
-/

/-- A script and nothing else. -/
def Blocks.parted : Blocks where
  scripts := [⟨0, [192, 1, 2, 128]⟩]
  tables := []
  maxSteps := 1

/-- The first bin has room for the header only. -/
def Bin.parted : List Bin :=
  [.mk 0x1008 5, .mk 0x1000 6]

/-- The script lies four bytes in front of the header. -/
def Layout.parted : Layout where
  placements := [⟨.header, 0x1008, 4, 0⟩, ⟨.script 0, 0x1000, 4, 1⟩]
  segments := [⟨0x1008, [0, 16, 1, 0]⟩, ⟨0x1000, [192, 1, 2, 128]⟩]
  summary := ⟨1, 1, 0, 4, 0, 4⟩

theorem Layout.merges_parted :
    allocate Blocks.parted (.chunked Bin.parted) = .ok parted
      ∧ ∃ m merged, Image.ofLayout parted 0xEA = .ok m ∧ m.segment? = some merged
        ∧ merged.Merges parted.segments 0xEA := by
  have h : allocate Blocks.parted (.chunked Bin.parted) = .ok parted := by cbv
  obtain ⟨m, merged, hm, hmerged, hmerges, -⟩ := merges_of_allocate h 0xEA
  exact ⟨h, m, merged, hm, hmerged, hmerges⟩

end DeltaScript
