import Mathlib
import DeltaScript.Proofs.Numerals
import DeltaScript.Proofs.Splitting
import DeltaScript.Proofs.Stages
import DeltaScript.Recording.Text

/-!
# What the pieces of a line mean

A line falls into its longest pieces.  What counts is the kinds of those that carry meaning, and
these can be read off the way in which a line is put together, part by part from the left.

* `Piece.meanings` — the kinds of the pieces that carry meaning, in their order.
* `Piece.meanings_gap_append`, `Piece.meanings_comment`, `Piece.meanings_word_append` — separators
  and comments mean nothing, and a word means its number.
* `Spaced.meanings_append` — numbers with separators between them mean these numbers.
* `Recording.exists_numbers_iff` — **the numbers of a line are its meanings**, if there is nothing
  but numbers.

**Only a word needs to know what follows it**: it goes on as long as there are word characters.
Separators may run into further separators without a difference to what the line means.
-/

namespace DeltaScript

namespace Piece

/-! ## Characters -/

/-- No separator is part of a word. -/
theorem isWordChar_of_isSeparator {c : Char} (h : isSeparator c) : isWordChar c = false := by
  simp only [isSeparator, Bool.or_eq_true, beq_iff_eq] at h
  rcases h with ((rfl | rfl) | rfl) | rfl
  · rfl
  · rfl
  · rfl
  · rfl

/-- The mark of a comment is neither a separator nor part of a word. -/
theorem not_of_isCommentMark {c : Char} (h : isCommentMark c) :
    isSeparator c = false ∧ isWordChar c = false := by
  simp only [isCommentMark, Bool.or_eq_true, beq_iff_eq] at h
  rcases h with rfl | rfl
  · exact ⟨rfl, rfl⟩
  · exact ⟨rfl, rfl⟩

/-- A word starts with neither a separator nor the mark of a comment. -/
theorem not_of_isWord {c : Char} {cs : List Char} (h : IsWord (c :: cs)) :
    isSeparator c = false ∧ isCommentMark c = false := by
  obtain ⟨lead, hlead, x, body, heq, hbody⟩ := h
  cases lead with
  | nil =>
      obtain ⟨rfl, -⟩ := List.cons.inj heq
      have hc : isWordChar c := hbody c (by simp)
      refine ⟨Bool.eq_false_iff.mpr fun h => ?_, Bool.eq_false_iff.mpr fun h => ?_⟩
      · simp [isWordChar_of_isSeparator h] at hc
      · simp [not_of_isCommentMark h] at hc
  | cons l lead =>
      obtain ⟨rfl, -⟩ := List.cons.inj heq
      have hleads : ∀ lead ∈ wordLeads, ∀ c ∈ lead,
          isSeparator c = false ∧ isCommentMark c = false := by
        simp [wordLeads, isSeparator, isCommentMark]
      exact hleads _ hlead c (by simp)

/-! ## Meanings -/

/-- The kinds of the pieces of a line that carry meaning. -/
def meanings (line : List Char) : List PieceKind :=
  ((all line).filter isSignificant).map kind

@[simp]
theorem meanings_nil : meanings [] = [] := by
  simp [meanings, all]

/-- What a line means is what its first piece means, and then what the rest of it means. -/
theorem meanings_cons (c : Char) (cs : List Char) :
    meanings (c :: cs)
      = (if (first c cs).kind = .gap then [] else [(first c cs).kind])
        ++ meanings ((c :: cs).drop (first c cs).text.length) := by
  rw [meanings, all, List.filter_cons]
  by_cases h : (first c cs).kind = .gap
  · simp [isSignificant, h, meanings]
  · simp [isSignificant, h, meanings]

/-! ## Separators and comments -/

/-- The separators in front of a line mean nothing. -/
theorem meanings_dropWhile (line : List Char) :
    meanings (line.dropWhile isSeparator) = meanings line := by
  -- no induction is needed, since the first piece takes all separators there are
  cases line with
  | nil => rfl
  | cons c cs =>
      cases hc : isSeparator c with
      | false => simp [hc]
      | true =>
          have hdrop : cs.drop (cs.takeWhile isSeparator).length = cs.dropWhile isSeparator :=
            List.append_cancel_left ((List.prefix_iff_eq_append.mp (List.takeWhile_prefix _)).trans
              List.takeWhile_append_dropWhile.symm)
          rw [meanings_cons]
          simp [first, hc, hdrop]

theorem meanings_gap_append {gap : List Char} (h : IsGap gap) (rest : List Char) :
    meanings (gap ++ rest) = meanings rest := by
  rw [← meanings_dropWhile, List.dropWhile_append_of_pos h, meanings_dropWhile]

theorem meanings_comment {comment : List Char} (h : IsComment comment) : meanings comment = [] := by
  rcases h with rfl | ⟨mark, text, rfl, hmark, -⟩
  · exact meanings_nil
  · rw [meanings_cons]
    simp [first, hmark, not_of_isCommentMark hmark]

/-! ## Words -/

/-- Whether a text cannot go on a word: it is empty, or starts with another character. -/
def EndsWord (rest : List Char) : Prop :=
  ∀ c ∈ rest.head?, isWordChar c = false

theorem endsWord_nil : EndsWord [] := by
  simp [EndsWord]

theorem endsWord_of_isComment {comment : List Char} (h : IsComment comment) :
    EndsWord comment := by
  rcases h with rfl | ⟨mark, text, rfl, hmark, -⟩
  · exact endsWord_nil
  · rintro _ ⟨⟩
    exact (not_of_isCommentMark hmark).2

/-- Separators end a word, as does what follows if there are none. -/
theorem endsWord_gap_append {gap rest : List Char} (hgap : IsGap gap)
    (hrest : gap = [] → EndsWord rest) : EndsWord (gap ++ rest) := by
  cases gap with
  | nil => exact hrest rfl
  | cons c gap =>
      rintro _ ⟨⟩
      exact isWordChar_of_isSeparator (hgap c (by simp))

theorem signOf_eq_nil {cs : List Char} (h : ∀ c ∈ cs.head?, c ≠ '-') : signOf cs = [] := by
  unfold signOf
  split
  · exact absurd rfl (h _ rfl)
  · rfl

theorem markOf_eq_nil {cs : List Char} (h : ∀ c ∈ cs.head?, c ≠ '$' ∧ c ≠ '%') :
    markOf cs = [] := by
  unfold markOf
  split
  · exact absurd rfl (h _ rfl).1
  · exact absurd rfl (h _ rfl).2
  · rfl

/-- The sign and the mark of a word are all that is in front of its first word character. -/
theorem leadLength_append {lead rest : List Char} {c : Char} (hlead : lead ∈ wordLeads)
    (hc : isWordChar c) : leadLength (lead ++ c :: rest) = lead.length := by
  obtain ⟨hminus, hnotmark⟩ := ne_of_isWordChar hc
  have hsign : signOf (c :: rest) = [] := signOf_eq_nil (by simpa using hminus)
  have hmark : markOf (c :: rest) = [] := markOf_eq_nil (by simpa using hnotmark)
  simp only [wordLeads, List.mem_cons, List.not_mem_nil, or_false] at hlead
  rcases hlead with rfl | rfl | rfl | rfl | rfl | rfl
  · simp [leadLength, hsign, hmark]
  · -- behind a lone sign the mark is looked for where the word characters start
    show 1 + (markOf (c :: rest)).length = 1
    rw [hmark]
    rfl
  · rfl
  · rfl
  · rfl
  · rfl

/-- **A word is read as a whole**, whatever follows that is no word character. -/
theorem wordOf_append {word rest : List Char} (hword : IsWord word) (hrest : EndsWord rest) :
    wordOf (word ++ rest) = word := by
  obtain ⟨lead, hlead, c, body, rfl, hbody⟩ := hword
  have hlength : leadLength (lead ++ c :: (body ++ rest)) = lead.length :=
    leadLength_append hlead (hbody c (by simp))
  rw [List.append_assoc, List.cons_append, wordOf, hlength, List.drop_left, List.take_left,
    ← List.cons_append, Text.takeWhile_append hbody hrest]

theorem first_append {c : Char} {cs rest : List Char} (hword : IsWord (c :: cs))
    (hrest : EndsWord rest) : first c (cs ++ rest) = ⟨kindOfWord (c :: cs), c :: cs⟩ := by
  obtain ⟨hseparator, hmark⟩ := not_of_isWord hword
  rw [first, hseparator, hmark, ← List.cons_append, wordOf_append hword hrest]
  rfl

/-- **A word means its number**, and is no part of what follows. -/
theorem meanings_word_append {word rest : List Char} (hword : IsWord word) (hrest : EndsWord rest) :
    meanings (word ++ rest) = kindOfWord word :: meanings rest := by
  cases word with
  | nil => exact absurd rfl hword.ne_nil
  | cons c cs =>
      have hkind : kindOfWord (c :: cs) ≠ .gap := by
        unfold kindOfWord
        split
        · simp
        · simp
      rw [List.cons_append, meanings_cons, first_append hword hrest, ← List.cons_append,
        List.drop_left, if_neg hkind, List.singleton_append]

end Piece

/-! ## Numbers -/

/-- A numeral means its number. -/
theorem Numeral.kindOfWord_eq {n : ℤ} {word : List Char} (h : Numeral n word)
    (hn : n.natAbs < numeralBound) : Piece.kindOfWord word = .number n := by
  rw [Piece.kindOfWord, h.readNumeral_eq, if_pos hn]

/-- A numeral with separators behind it means its number.  It needs none where something else ends
the word. -/
theorem Numeral.meanings_append {n : ℤ} {word gap rest : List Char} (h : Numeral n word)
    (hn : n.natAbs < numeralBound) (hgap : IsGap gap) (hrest : gap = [] → Piece.EndsWord rest) :
    Piece.meanings (word ++ (gap ++ rest)) = .number n :: Piece.meanings rest := by
  rw [Piece.meanings_word_append h.isWord (Piece.endsWord_gap_append hgap hrest),
    Piece.meanings_gap_append hgap, h.kindOfWord_eq hn]

/-- **Numbers with separators between them mean these numbers.** -/
theorem Spaced.meanings_append {ns : List ℤ} {text rest : List Char} (h : Spaced ns text)
    (hns : ∀ n ∈ ns, n.natAbs < numeralBound) (hrest : Piece.EndsWord rest) :
    Piece.meanings (text ++ rest) = ns.map .number ++ Piece.meanings rest := by
  induction h with
  | @last n word gap hword hgap =>
      rw [List.append_assoc, hword.meanings_append (hns n (by simp)) hgap fun _ => hrest]
      rfl
  | @more n ns word gap later hword hgap hne _ ih =>
      rw [List.append_assoc, List.append_assoc,
        hword.meanings_append (hns n (by simp)) hgap fun h => absurd h hne,
        ih fun m hm => hns m (by simp [hm])]
      rfl

namespace Recording

variable {piece : Piece}

theorem numbers_cons_of_gap (h : piece.kind = .gap) (offset : ℕ) (pieces : List Piece) :
    numbers offset (piece :: pieces) = numbers (offset + byteCount piece.text) pieces := by
  simp [numbers, h]

theorem numbers_cons_of_number {value : ℤ} (h : piece.kind = .number value) (offset : ℕ)
    (pieces : List Piece) :
    numbers offset (piece :: pieces)
      = (numbers (offset + byteCount piece.text) pieces).map
          (⟨value, ⟨offset, offset + byteCount piece.text⟩⟩ :: ·) := by
  simp [numbers, h]

theorem numbers_cons_of_junk (h : piece.kind = .junk) (offset : ℕ) (pieces : List Piece) :
    numbers offset (piece :: pieces)
      = .error (.notANumber (String.ofList piece.text)
          ⟨offset, offset + byteCount piece.text⟩) := by
  simp [numbers, h]

/-- **The numbers of a line are its meanings**: they can be read exactly if it means nothing but
numbers. -/
theorem exists_numbers_iff {offset : ℕ} {pieces : List Piece} {ns : List ℤ} :
    (∃ placed, numbers offset pieces = .ok placed ∧ placed.map (·.value) = ns) ↔
      (pieces.filter Piece.isSignificant).map Piece.kind = ns.map .number := by
  induction pieces generalizing offset ns with
  | nil => cases ns <;> simp [numbers]
  | cons piece pieces ih =>
      rw [List.filter_cons]
      cases hkind : piece.kind with
      | gap => simpa [numbers_cons_of_gap hkind, Piece.isSignificant, hkind] using ih
      | number value =>
          simp only [numbers_cons_of_number hkind, map_eq_ok_iff]
          cases ns with
          | nil => simp [Piece.isSignificant, hkind]
          | cons n ns =>
              have hcons : (((piece :: pieces.filter Piece.isSignificant).map Piece.kind)
                  = (n :: ns).map .number) ↔ value = n ∧
                    (pieces.filter Piece.isSignificant).map Piece.kind = ns.map .number := by
                simp [hkind]
              rw [if_pos (by simp [Piece.isSignificant, hkind]), hcons,
                ← @ih (offset + byteCount piece.text)]
              constructor
              · rintro ⟨_, ⟨placed, hplaced, rfl⟩, heq⟩
                obtain ⟨hvalue, hvalues⟩ := List.cons.inj heq
                exact ⟨hvalue, placed, hplaced, hvalues⟩
              · rintro ⟨rfl, placed, hplaced, rfl⟩
                exact ⟨_, ⟨placed, hplaced, rfl⟩, rfl⟩
      | junk => cases ns <;> simp [numbers_cons_of_junk hkind, Piece.isSignificant, hkind]

end Recording

end DeltaScript
