import DeltaScript.Failure.Diagnostic
import DeltaScript.Proofs.Pieces

/-!
# What a text can be refused for

Whatever is wrong with the text of a recording, the failure has the code of recordings, so that no
other stage is blamed for it.

* `Recording.numbers_cases`, `Recording.frameOf_cases` — all that a line can be refused for.
* `Recording.code_of_parse` — **every failure of a text has one code.**
* `Recording.object_lt_objects`, `Recording.exists_object_add_one` — a recording speaks of all
  objects that it has frames of, and the last of them has one.
-/

namespace DeltaScript.Recording

/-- The pieces of a line are refused for one that is no number. -/
theorem numbers_cases {offset : ℕ} {pieces : List Piece} {e : Failure}
    (h : numbers offset pieces = .error e) :
    ∃ before piece after, pieces = before ++ piece :: after
      ∧ e = .notANumber (String.ofList piece.text)
        ⟨offset + byteCount (before.flatMap Piece.text),
          offset + byteCount (before.flatMap Piece.text) + byteCount piece.text⟩ := by
  induction pieces generalizing offset with
  | nil => cases h
  | cons piece pieces ih =>
      cases hkind : piece.kind with
      | gap =>
          rw [numbers_cons_of_gap hkind] at h
          obtain ⟨before, junk, after, rfl, rfl⟩ := ih h
          exact ⟨piece :: before, junk, after, rfl, by simp [Nat.add_assoc]⟩
      | number value =>
          rw [numbers_cons_of_number hkind, map_eq_error_iff] at h
          obtain ⟨before, junk, after, rfl, rfl⟩ := ih h
          exact ⟨piece :: before, junk, after, rfl, by simp [Nat.add_assoc]⟩
      | junk =>
          rw [numbers_cons_of_junk hkind] at h
          cases h
          exact ⟨[], piece, pieces, rfl, by simp⟩

/-- The numbers of a line are refused as a whole, or for one of them. -/
theorem frameOf_cases {width : Option ℕ} {line : Span} {placed : List PlacedNumber} {e : Failure}
    (h : frameOf width line placed = .error e) :
    (∃ object, e = .noValues object line)
      ∨ (∃ expected found, e = .unevenLine expected found line)
      ∨ ∃ p ∈ placed, e = .negativeObject p.value p.span ∨ e = .wideValue p.value p.span := by
  cases placed with
  | nil => cases h
  | cons object values =>
      rw [frameOf] at h
      split_ifs at h
      · cases h
        exact Or.inr (Or.inr ⟨object, by simp, Or.inl rfl⟩)
      · cases h
        exact Or.inl ⟨_, rfl⟩
      · cases h
        exact Or.inr (Or.inl ⟨_, _, rfl⟩)
      · rw [bind_pure_eq_error_iff] at h
        obtain ⟨before, p, after, rfl, -, hp⟩ := mapM_eq_error_iff.mp h
        rw [attributeValue] at hp
        split_ifs at hp
        cases hp
        exact Or.inr (Or.inr ⟨p, by simp, Or.inr rfl⟩)

theorem code_of_numbers {offset : ℕ} {pieces : List Piece} {e : Failure}
    (h : numbers offset pieces = .error e) : e.code = .recording := by
  obtain ⟨_, _, _, -, rfl⟩ := numbers_cases h
  rfl

theorem code_of_frameOf {width : Option ℕ} {line : Span} {numbers : List PlacedNumber} {e : Failure}
    (h : frameOf width line numbers = .error e) : e.code = .recording := by
  rcases frameOf_cases h with ⟨_, rfl⟩ | ⟨_, _, rfl⟩ | ⟨_, -, rfl | rfl⟩
  · rfl
  · rfl
  · rfl
  · rfl

theorem code_of_readLine {r : Reader} {line : List Char} {e : Failure}
    (h : readLine r line = .error e) : e.code = .recording := by
  rw [readLine] at h
  rcases bind_eq_error_iff.mp h with h | ⟨numbers, _, h⟩
  · exact code_of_numbers h
  · rcases bind_eq_error_iff.mp h with h | ⟨frame, _, h⟩
    · exact code_of_frameOf h
    · cases frame with
      | none => cases h
      | some frame => cases h

/-- **Every failure of a text has the code of recordings.** -/
theorem code_of_parse {source : String} {e : Failure} (h : parse source = .error e) :
    e.code = .recording := by
  obtain ⟨_, _, _, _, -, -, hline⟩ := foldlM_eq_error_iff.mp (map_eq_error_iff.mp h)
  exact code_of_readLine hline

/-- A recording speaks of all objects that it has frames of. -/
theorem object_lt_objects {r : Recording} {f : Frame} (hf : f ∈ r.frames) :
    f.object < r.objects := by
  have hmax : ∀ n ∈ 0 :: r.frames.map (·.object + 1), n ≤ r.objects :=
    (List.max?_eq_some_iff.mp List.max?_cons').2
  exact hmax _ (List.mem_cons_of_mem _ (List.mem_map_of_mem hf))

/-- The last object that a recording speaks of has a frame. -/
theorem exists_object_add_one {r : Recording} (h : r.frames ≠ []) :
    ∃ f ∈ r.frames, f.object + 1 = r.objects := by
  have hmem : r.objects ∈ 0 :: r.frames.map (·.object + 1) :=
    (List.max?_eq_some_iff.mp List.max?_cons').1
  rcases List.mem_cons.mp hmem with hzero | hmem
  · obtain ⟨f, hf⟩ := List.exists_mem_of_ne_nil _ h
    have hlt := object_lt_objects hf
    omega
  · obtain ⟨f, hf, heq⟩ := List.mem_map.mp hmem
    exact ⟨f, hf, heq⟩

end DeltaScript.Recording
