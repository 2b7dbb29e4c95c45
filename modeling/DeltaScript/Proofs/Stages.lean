import Mathlib

/-!
# Stages that may fail

A compilation is a chain of stages each of which may refuse.  What such a chain says of itself is
read off its result here, once for all of them.

* `bind_eq_ok_iff`, `bind_eq_error_iff` — two stages succeed together, and fail as the first that
  fails.
* `bind_eq_error_iff_of_forall` — the same for a second stage that fails or not whatever comes of
  the first.
* `map_eq_ok_iff`, `map_eq_error_iff` — a stage followed by a function.
* `mapError_eq_ok_iff` — a stage whose failures are told in other words.
* `mapM_eq_ok_iff`, `exists_mapM_iff`, `mapM_eq_error_iff` — a stage for each element of a list:
  **it succeeds if it does so for all of them, and fails as the first element that fails.**
* `mapM_append_eq_error_iff`, `mapM_filter_eq_error_iff` — a list in two parts, and a list of which
  some elements never fail.
* `forM_eq_ok_iff`, `forM_eq_error_iff` — a check of each element of a list.
* `foldlM_eq_error_iff` — a state that is carried along a list.
-/

namespace DeltaScript

variable {ε α β : Type}

theorem bind_eq_ok_iff {x : Except ε α} {f : α → Except ε β} {b : β} :
    x >>= f = .ok b ↔ ∃ a, x = .ok a ∧ f a = .ok b := by
  cases x with
  | error e => simp [bind, Except.bind]
  | ok a => simp [bind, Except.bind]

/-- Two stages fail as the first one does, or as the second one does behind it. -/
theorem bind_eq_error_iff {x : Except ε α} {f : α → Except ε β} {e : ε} :
    x >>= f = .error e ↔ x = .error e ∨ ∃ a, x = .ok a ∧ f a = .error e := by
  cases x with
  | error e' => simp [bind, Except.bind]
  | ok a => simp [bind, Except.bind]

/-- A stage succeeds if it does not fail. -/
theorem exists_ok_iff {x : Except ε α} : (∃ a, x = .ok a) ↔ ∀ e, x ≠ .error e := by
  cases x with
  | error e => simp
  | ok a => simp

/-- Two stages fail as the first one does, or else as the second one does whatever comes of the
first. -/
theorem bind_eq_error_iff_of_forall {x : Except ε α} {f : α → Except ε β} {e : ε} {P : Prop}
    (h : ∀ a, f a = .error e ↔ P) :
    x >>= f = .error e ↔ x = .error e ∨ (∃ a, x = .ok a) ∧ P := by
  simp only [bind_eq_error_iff, h, exists_and_right]

theorem bind_pure_eq_error_iff {x : Except ε α} {f : α → β} {e : ε} :
    (x >>= fun a => pure (f a)) = .error e ↔ x = .error e := by
  cases x with
  | error e' => simp [bind, Except.bind]
  | ok a => simp [bind, Except.bind, pure, Except.pure]

theorem map_eq_ok_iff {x : Except ε α} {f : α → β} {b : β} :
    x.map f = .ok b ↔ ∃ a, x = .ok a ∧ f a = b := by
  cases x with
  | error e => simp [Except.map]
  | ok a => simp [Except.map]

theorem map_eq_error_iff {x : Except ε α} {f : α → β} {e : ε} :
    x.map f = .error e ↔ x = .error e := by
  cases x with
  | error e' => simp [Except.map]
  | ok a => simp [Except.map]

theorem mapError_eq_ok_iff {ε' : Type} {x : Except ε α} {f : ε → ε'} {a : α} :
    x.mapError f = .ok a ↔ x = .ok a := by
  cases x with
  | error e => simp [Except.mapError]
  | ok b => simp [Except.mapError]

/-- **A list of stages succeeds element by element.** -/
theorem mapM_eq_ok_iff {f : α → Except ε β} {xs : List α} {ys : List β} :
    xs.mapM f = .ok ys ↔ List.Forall₂ (fun x y => f x = .ok y) xs ys := by
  induction xs generalizing ys with
  | nil => cases ys <;> simp [pure, Except.pure]
  | cons x xs ih =>
      rw [List.mapM_cons, bind_eq_ok_iff, List.forall₂_cons_left_iff]
      constructor
      · rintro ⟨y, hy, h⟩
        obtain ⟨rest, hrest, h⟩ := bind_eq_ok_iff.mp h
        exact ⟨y, rest, hy, ih.mp hrest, (Except.ok.inj h).symm⟩
      · rintro ⟨y, rest, hy, hrest, rfl⟩
        exact ⟨y, hy, bind_eq_ok_iff.mpr ⟨rest, ih.mpr hrest, rfl⟩⟩

theorem mapM_eq_ok_map {f : α → Except ε β} {g : α → β} {xs : List α}
    (h : ∀ x ∈ xs, f x = .ok (g x)) : xs.mapM f = .ok (xs.map g) := by
  rw [mapM_eq_ok_iff, List.forall₂_map_right_iff, List.forall₂_same]
  exact h

/-- Every result of a list of stages is that of one of its elements. -/
theorem exists_mem_of_mapM {f : α → Except ε β} {xs : List α} {ys : List β}
    (h : xs.mapM f = .ok ys) {y : β} (hy : y ∈ ys) : ∃ x ∈ xs, f x = .ok y := by
  have hall := mapM_eq_ok_iff.mp h
  clear h
  induction hall with
  | nil => cases hy
  | @cons x z xs ys hx _ ih =>
      rcases List.mem_cons.mp hy with rfl | hy
      · exact ⟨x, by simp, hx⟩
      · obtain ⟨w, hw, hwy⟩ := ih hy
        exact ⟨w, by simp [hw], hwy⟩

theorem exists_mapM_iff {f : α → Except ε β} {xs : List α} :
    (∃ ys, xs.mapM f = .ok ys) ↔ ∀ x ∈ xs, ∃ y, f x = .ok y := by
  simp only [mapM_eq_ok_iff]
  induction xs with
  | nil => simp
  | cons x xs ih =>
      rw [List.forall_mem_cons, ← ih]
      constructor
      · rintro ⟨ys, h⟩
        obtain ⟨y, rest, hy, hrest, -⟩ := List.forall₂_cons_left_iff.mp h
        exact ⟨⟨y, hy⟩, rest, hrest⟩
      · rintro ⟨⟨y, hy⟩, rest, hrest⟩
        exact ⟨y :: rest, .cons hy hrest⟩

theorem mapM_cons_eq_error_iff {f : α → Except ε β} {x : α} {xs : List α} {e : ε} :
    (x :: xs).mapM f = .error e ↔
      f x = .error e ∨ (∃ y, f x = .ok y) ∧ xs.mapM f = .error e := by
  rw [List.mapM_cons]
  exact bind_eq_error_iff_of_forall fun y => bind_pure_eq_error_iff

theorem mapM_append_eq_error_iff {f : α → Except ε β} {xs ys : List α} {e : ε} :
    (xs ++ ys).mapM f = .error e ↔
      xs.mapM f = .error e ∨ (∃ zs, xs.mapM f = .ok zs) ∧ ys.mapM f = .error e := by
  rw [List.mapM_append]
  exact bind_eq_error_iff_of_forall fun zs => bind_pure_eq_error_iff

/-- **A list of stages fails as the first element that fails**, behind elements that do not. -/
theorem mapM_eq_error_iff {f : α → Except ε β} {xs : List α} {e : ε} :
    xs.mapM f = .error e ↔ ∃ before x after, xs = before ++ x :: after
      ∧ (∀ b ∈ before, ∃ y, f b = .ok y) ∧ f x = .error e := by
  induction xs with
  | nil => simp [pure, Except.pure]
  | cons x xs ih =>
      rw [mapM_cons_eq_error_iff]
      constructor
      · rintro (hx | ⟨hx, h⟩)
        · exact ⟨[], x, xs, rfl, by simp, hx⟩
        · obtain ⟨before, z, after, rfl, hbefore, hz⟩ := ih.mp h
          exact ⟨x :: before, z, after, rfl, by simpa using ⟨hx, hbefore⟩, hz⟩
      · rintro ⟨before, z, after, hxs, hbefore, hz⟩
        cases before with
        | nil =>
            obtain ⟨rfl, rfl⟩ := List.cons.inj hxs
            exact Or.inl hz
        | cons b before =>
            obtain ⟨rfl, rfl⟩ := List.cons.inj hxs
            obtain ⟨hx, hbefore⟩ := List.forall_mem_cons.mp hbefore
            exact Or.inr ⟨hx, ih.mpr ⟨before, z, after, rfl, hbefore, hz⟩⟩

/-- **Elements that are never refused can be left out.** -/
theorem mapM_filter_eq_error_iff {γ δ : Type} {f : α → Except ε β} {g : γ → Except ε δ}
    {p : α → Bool} {h : α → γ} (hskip : ∀ x, p x = false → ∃ y, f x = .ok y)
    (hsame : ∀ x, p x = true → ∀ e, f x = .error e ↔ g (h x) = .error e) {xs : List α} {e : ε} :
    xs.mapM f = .error e ↔ ((xs.filter p).map h).mapM g = .error e := by
  induction xs with
  | nil => simp [pure, Except.pure]
  | cons x xs ih =>
      cases hp : p x with
      | false =>
          obtain ⟨y, hy⟩ := hskip x hp
          rw [List.filter_cons_of_neg (by simp [hp]), mapM_cons_eq_error_iff, ih, hy]
          simp
      | true =>
          rw [List.filter_cons_of_pos hp, List.map_cons, mapM_cons_eq_error_iff,
            mapM_cons_eq_error_iff, ih, hsame x hp, exists_ok_iff, exists_ok_iff]
          simp only [ne_eq, hsame x hp]

theorem forM_eq_ok_iff {f : α → Except ε Unit} {xs : List α} :
    xs.forM f = .ok () ↔ ∀ x ∈ xs, f x = .ok () := by
  induction xs with
  | nil => simp [pure, Except.pure]
  | cons x xs ih =>
      change (f x >>= fun _ => xs.forM f) = .ok () ↔ _
      rw [bind_eq_ok_iff, List.forall_mem_cons, ← ih]
      exact ⟨fun ⟨_, hx, hxs⟩ => ⟨hx, hxs⟩, fun ⟨hx, hxs⟩ => ⟨(), hx, hxs⟩⟩

/-- **A check of a list fails as it does for the first element that fails.** -/
theorem forM_eq_error_iff {f : α → Except ε Unit} {xs : List α} {e : ε} :
    xs.forM f = .error e ↔ ∃ before x after, xs = before ++ x :: after
      ∧ (∀ b ∈ before, f b = .ok ()) ∧ f x = .error e := by
  have hmapM : xs.forM f = .error e ↔ xs.mapM f = .error e := by
    induction xs with
    | nil => simp [pure, Except.pure]
    | cons x xs ih =>
        rw [mapM_cons_eq_error_iff, ← ih]
        exact bind_eq_error_iff_of_forall fun _ => Iff.rfl
  rw [hmapM, mapM_eq_error_iff]
  simp only [Unique.exists_iff]

/-- **A state that is carried along a list fails as the first step that fails**, in the state that
the steps before it have led to. -/
theorem foldlM_eq_error_iff {σ : Type} {f : σ → α → Except ε σ} {xs : List α} {s : σ} {e : ε} :
    xs.foldlM f s = .error e ↔ ∃ before x after s', xs = before ++ x :: after
      ∧ before.foldlM f s = .ok s' ∧ f s' x = .error e := by
  induction xs generalizing s with
  | nil => simp [pure, Except.pure]
  | cons x xs ih =>
      rw [List.foldlM_cons, bind_eq_error_iff]
      constructor
      · rintro (hx | ⟨s', hx, h⟩)
        · exact ⟨[], x, xs, s, rfl, rfl, hx⟩
        · obtain ⟨before, z, after, last, rfl, hbefore, hz⟩ := ih.mp h
          refine ⟨x :: before, z, after, last, rfl, ?_, hz⟩
          rw [List.foldlM_cons, bind_eq_ok_iff]
          exact ⟨s', hx, hbefore⟩
      · rintro ⟨before, z, after, last, hxs, hbefore, hz⟩
        cases before with
        | nil =>
            obtain ⟨rfl, rfl⟩ := List.cons.inj hxs
            cases hbefore
            exact Or.inl hz
        | cons b before =>
            obtain ⟨rfl, rfl⟩ := List.cons.inj hxs
            rw [List.foldlM_cons] at hbefore
            obtain ⟨s', hx, hrest⟩ := bind_eq_ok_iff.mp hbefore
            exact Or.inr ⟨s', hx, ih.mpr ⟨before, z, after, last, rfl, hrest, hz⟩⟩

end DeltaScript
