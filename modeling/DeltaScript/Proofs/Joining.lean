import Mathlib
import DeltaScript.Failure.Diagnostic
import DeltaScript.Proofs.Lines

/-!
# Texts that are put together

Two texts with a newline between them are read like one text.  This is not obvious, since a reader
goes through the second text behind a state that the first one has left: an offset, the number of
values on a line, and frames.

* `framesRead_append_iff`, `areEven_append_iff` — the lines are read part by part, and only the
  number of values is shared.
* `Failure.shift`, `Recording.foldlM_readLine_shift` — **a reader that starts further on does the
  same further on**, and so does whatever it fails with.
* `Recording.Joins`, `Recording.joins` — **what two texts say together is what they say one after
  the other.**
-/

namespace DeltaScript

/-! ## Frames in two parts -/

/-- Frames in two parts are as wide as each other if each part is, and the first frames of the two
are. -/
theorem areEven_append_iff {fs gs : List Frame} :
    AreEven none (fs ++ gs) ↔ AreEven none fs ∧ AreEven none gs
      ∧ (fs = [] ∨ gs = [] ∨ fs.head?.map (·.state.length) = gs.head?.map (·.state.length)) := by
  cases fs with
  | nil => simp
  | cons f fs =>
      cases gs with
      | nil => simp
      | cons g gs =>
          simp only [List.cons_append, areEven_cons_iff]
          constructor
          · rintro ⟨-, n, hn, hall⟩
            obtain ⟨hfs, hgs⟩ := List.forall_mem_append.mp hall
            obtain ⟨hg, hgs⟩ := List.forall_mem_cons.mp hgs
            have hf : f.state.length = n := hn _ rfl
            exact ⟨⟨by simp, n, hn, hfs⟩, ⟨by simp, n, by simp [hg], hgs⟩, by simp [hf, hg]⟩
          · rintro ⟨⟨-, n, hn, hfs⟩, ⟨-, m, hm, hgs⟩, heq⟩
            have hf : f.state.length = n := hn _ rfl
            have hg : g.state.length = m := hm _ rfl
            have hwidth : f.state.length = g.state.length := by simpa using heq
            refine ⟨by simp, n, hn, List.forall_mem_append.mpr ⟨hfs, ?_⟩⟩
            rw [← hf, hwidth]
            exact List.forall_mem_cons.mpr ⟨rfl, hg ▸ hgs⟩

/-! ## Moving on -/

/-- The same stretch, `n` bytes further on. -/
def Span.shift (n : ℕ) (s : Span) : Span :=
  ⟨s.start + n, s.stop + n⟩

/-- The same number, `n` bytes further on. -/
def PlacedNumber.shift (n : ℕ) (p : PlacedNumber) : PlacedNumber :=
  ⟨p.value, p.span.shift n⟩

/-- The same failure, its place in the text `n` bytes further on. -/
def Failure.shift (n : ℕ) : Failure → Failure
  | .notANumber text span => .notANumber text (span.shift n)
  | .negativeObject object span => .negativeObject object (span.shift n)
  | .noValues object span => .noValues object (span.shift n)
  | .unevenLine expected found span => .unevenLine expected found (span.shift n)
  | .wideValue value span => .wideValue value (span.shift n)
  | e => e

/-- **A failure further on is told in the same words.** -/
theorem Failure.diagnostic_shift (n : ℕ) (e : Failure) :
    (e.shift n).diagnostic
      = { e.diagnostic with span := e.diagnostic.span.map (Span.shift n) } := by
  cases e <;> rfl

namespace Recording

variable {α β γ δ : Type}

/-- What comes of a stage that is run `n` bytes further on. -/
def shifted (n : ℕ) (f : α → β) (x : Except Failure α) : Except Failure β :=
  (x.map f).mapError (Failure.shift n)

/-- **Two stages are moved on if each of them is.** -/
theorem shifted_bind {n : ℕ} {f : α → β} {g : γ → δ} {k : α → Except Failure γ}
    {k' : β → Except Failure δ} (h : ∀ a, k' (f a) = shifted n g (k a)) (x : Except Failure α) :
    shifted n f x >>= k' = shifted n g (x >>= k) := by
  cases x with
  | error e => rfl
  | ok a => exact h a

theorem numbers_shift (n offset : ℕ) (pieces : List Piece) :
    numbers (offset + n) pieces
      = shifted n (List.map (PlacedNumber.shift n)) (numbers offset pieces) := by
  induction pieces generalizing offset with
  | nil => rfl
  | cons piece pieces ih =>
      have hstop : offset + n + byteCount piece.text = offset + byteCount piece.text + n := by
        omega
      cases hkind : piece.kind with
      | gap => rw [numbers_cons_of_gap hkind, numbers_cons_of_gap hkind, hstop, ih]
      | number value =>
          rw [numbers_cons_of_number hkind, numbers_cons_of_number hkind, hstop, ih]
          cases numbers (offset + byteCount piece.text) pieces with
          | error e => rfl
          | ok placed => rfl
      | junk =>
          rw [numbers_cons_of_junk hkind, numbers_cons_of_junk hkind, hstop]
          rfl

theorem attributeValue_shift (n : ℕ) (p : PlacedNumber) :
    attributeValue (p.shift n) = shifted n id (attributeValue p) := by
  have hvalue : (p.shift n).value = p.value := rfl
  rw [attributeValue, attributeValue, hvalue]
  split_ifs
  · rfl
  · rfl

theorem mapM_attributeValue_shift (n : ℕ) (values : List PlacedNumber) :
    (values.map (PlacedNumber.shift n)).mapM attributeValue
      = shifted n id (values.mapM attributeValue) := by
  induction values with
  | nil => rfl
  | cons p values ih =>
      rw [List.map_cons, List.mapM_cons, List.mapM_cons, attributeValue_shift, ih]
      refine shifted_bind (fun v => ?_) _
      refine shifted_bind (fun state => ?_) _
      rfl

theorem frameOf_shift (n : ℕ) (width : Option ℕ) (line : Span) (placed : List PlacedNumber) :
    frameOf width (line.shift n) (placed.map (PlacedNumber.shift n))
      = shifted n id (frameOf width line placed) := by
  cases placed with
  | nil => rfl
  | cons object values =>
      have hobject : (object.shift n).value = object.value := rfl
      rw [List.map_cons, frameOf, frameOf, hobject, List.isEmpty_map, List.length_map,
        mapM_attributeValue_shift]
      split_ifs
      · rfl
      · rfl
      · rfl
      · refine shifted_bind (fun state => ?_) _
        rfl

/-- The same reader, `n` bytes further on. -/
def Reader.shift (n : ℕ) (r : Reader) : Reader :=
  { r with offset := r.offset + n }

/-- **A reader that starts further on reads a line in the same way further on.** -/
theorem readLine_shift (n : ℕ) (r : Reader) (line : List Char) :
    readLine (r.shift n) line = shifted n (Reader.shift n) (readLine r line) := by
  have hstop : r.offset + n + byteCount line = r.offset + byteCount line + n := by omega
  have hnext : r.offset + byteCount line + n + 1 = r.offset + byteCount line + 1 + n := by omega
  rw [readLine, readLine]
  simp only [Reader.shift]
  rw [numbers_shift, hstop]
  refine shifted_bind (fun placed => ?_) _
  rw [hnext]
  -- the shifted line is only by definition the span that stands here, so `rw` does not find it
  refine Eq.trans (congrArg (· >>= _) (frameOf_shift n r.width ⟨r.offset, _⟩ placed)) ?_
  refine shifted_bind (fun frame? => ?_) _
  cases frame? with
  | none => rfl
  | some f => rfl

theorem foldlM_readLine_shift (n : ℕ) (r : Reader) (lines : List (List Char)) :
    lines.foldlM readLine (r.shift n)
      = shifted n (Reader.shift n) (lines.foldlM readLine r) := by
  induction lines generalizing r with
  | nil => rfl
  | cons line lines ih =>
      rw [List.foldlM_cons, List.foldlM_cons, readLine_shift]
      exact shifted_bind (fun next => ih next) _

/-! ## Two texts -/

/-- Behind a text without frames, a reader has done nothing but move on. -/
theorem foldlM_readLine_of_parse {s : String} {p : Recording} (h : parse s = .ok p)
    (hnone : p.frames = []) :
    (s.toList.splitOn '\n').foldlM readLine {}
      = .ok (({} : Reader).shift (s.utf8ByteSize + 1)) := by
  obtain ⟨r, hr, rfl⟩ := map_eq_ok_iff.mp h
  obtain ⟨frames, -, -, rfl⟩ := foldlM_readLine_eq_ok_iff.mp hr
  obtain rfl : frames = [] := by simpa [Reader.addAll] using hnone
  rw [hr, Reader.addAll, Text.flatMap_splitOn, byteCount_append, Text.byteCount_toList]
  rfl

/-- What two texts say together. -/
structure Joins (s t : String) : Prop where
  /-- They spell a recording together exactly if each of them spells one, and if the frames of the
  two are as wide as each other where both have frames: the frames of the first one, then those of
  the second one. -/
  reads : ∀ r, parse (s ++ "\n" ++ t) = .ok r ↔
    ∃ p q, parse s = .ok p ∧ parse t = .ok q
      ∧ (p.frames = [] ∨ q.frames = [] ∨ p.attributes? = q.attributes?)
      ∧ r.frames = p.frames ++ q.frames
  /-- What the first text is refused for, both are refused for. -/
  first_fails : ∀ e, parse s = .error e → parse (s ++ "\n" ++ t) = .error e
  /-- Behind a text without frames, what the second text is refused for is told in the same words,
  and its place is as many bytes further on as stand in front of the second text. -/
  second_fails : ∀ p e, parse s = .ok p → p.frames = [] → parse t = .error e →
    ∃ e', parse (s ++ "\n" ++ t) = .error e' ∧ e'.diagnostic = { e.diagnostic with
      span := e.diagnostic.span.map (Span.shift (s.utf8ByteSize + 1)) }

theorem splitOn_append (s t : String) :
    (s ++ "\n" ++ t).toList.splitOn '\n' = s.toList.splitOn '\n' ++ t.toList.splitOn '\n' := by
  rw [String.toList_append, String.toList_append, List.append_assoc]
  exact List.splitOn_append_cons_self _ _

theorem parse_append (s t : String) :
    parse (s ++ "\n" ++ t) = ((s.toList.splitOn '\n').foldlM readLine {} >>= fun r =>
      (t.toList.splitOn '\n').foldlM readLine r).map fun r => ⟨r.newestFirst.reverse⟩ := by
  rw [parse, splitOn_append, List.foldlM_append]

/-- **What two texts say together is what they say one after the other.** -/
theorem joins (s t : String) : Joins s t := by
  constructor
  case reads =>
    intro r
    rw [parse_eq_ok_iff, splitOn_append, framesRead_append_iff]
    constructor
    · rintro ⟨⟨fs, gs, hr, hfs, hgs⟩, heven⟩
      rw [hr, areEven_append_iff] at heven
      exact ⟨⟨fs⟩, ⟨gs⟩, parse_eq_ok_iff.mpr ⟨hfs, heven.1⟩, parse_eq_ok_iff.mpr ⟨hgs, heven.2.1⟩,
        heven.2.2, hr⟩
    · rintro ⟨p, q, hp, hq, hwidth, hr⟩
      obtain ⟨hfs, hpeven⟩ := parse_eq_ok_iff.mp hp
      obtain ⟨hgs, hqeven⟩ := parse_eq_ok_iff.mp hq
      rw [hr, areEven_append_iff]
      exact ⟨⟨_, _, rfl, hfs, hgs⟩, hpeven, hqeven, hwidth⟩
  case first_fails =>
    intro e h
    rw [parse_append, map_eq_error_iff, bind_eq_error_iff]
    exact Or.inl (map_eq_error_iff.mp h)
  case second_fails =>
    intro p e hp hnone h
    refine ⟨e.shift (s.utf8ByteSize + 1), ?_, Failure.diagnostic_shift _ e⟩
    -- without frames no width is carried over, so the second text is read as if it stood alone
    rw [parse_append, foldlM_readLine_of_parse hp hnone, map_eq_error_iff]
    show (t.toList.splitOn '\n').foldlM readLine (({} : Reader).shift (s.utf8ByteSize + 1)) = _
    rw [foldlM_readLine_shift, map_eq_error_iff.mp h]
    rfl

end Recording

end DeltaScript
