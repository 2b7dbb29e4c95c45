import Mathlib
import DeltaScript.Proofs.Rendering

/-!
# A number alone

A number on a command line is written as in a recording, but it does not go through the reader of
recordings, which keeps a place for every number and a width for every line.  **There is one syntax
all the same**, since both readers go by what a line means.

* `parseNumber_eq_some_iff` — a text is read as a number exactly if it is a single line that means
  this number and nothing else.
* `Recording.parse_eq_singleton_iff` — a single line is read as a recording of one frame exactly if
  it is read as that frame.
* `Numeral.parseNumber_eq` — a numeral alone is read as its number, unless its digits exceed the
  bound.
* `Radix.write` — a number as it is written in a notation, without zeros in front.
* `Recording.parseNumber_agrees` — **a number alone is read as it is read in a recording.**
-/

namespace DeltaScript

/-! ## A single line -/

/-- **A text is read as a number exactly if it is a single line that means this number.** -/
theorem parseNumber_eq_some_iff {text : String} {v : ℤ} :
    parseNumber text = some v ↔ '\n' ∉ text.toList
      ∧ Piece.meanings text.toList = [.number v] := by
  rw [parseNumber, Piece.meanings]
  split_ifs with hnewline
  · simpa using fun h => absurd (List.contains_iff_mem.mp hnewline) h
  · rw [List.contains_iff_mem] at hnewline
    rcases (Piece.all text.toList).filter Piece.isSignificant with _ | ⟨⟨kind, word⟩, _ | ⟨p, rest⟩⟩
    · simp
    · cases kind <;> simp [hnewline]
    · simp

theorem framesRead_singleton_iff {f : Frame} {line : List Char} :
    FramesRead [f] [line] ↔ f.IsReadFrom line := by
  constructor
  · intro h
    cases h with
    | idle _ h => cases h
    | frame hline _ => exact hline
  · exact fun h => .frame h .done

/-- A single line is a recording of one frame exactly if it is read as that frame. -/
theorem Recording.parse_eq_singleton_iff {source : String} (h : '\n' ∉ source.toList) {f : Frame} :
    parse source = .ok ⟨[f]⟩ ↔ f.IsReadFrom source.toList := by
  have heven : AreEven none [f] := ⟨f.state.length, by simp, by simp⟩
  rw [parse_eq_ok_iff, List.splitOn_eq_singleton h, framesRead_singleton_iff]
  exact and_iff_left heven

/-! ## Numerals -/

/-- **A numeral alone is read as its number**, unless its digits exceed the bound. -/
theorem Numeral.parseNumber_eq {n : ℤ} {word : List Char} (h : Numeral n word) :
    parseNumber (String.ofList word) = if n.natAbs < numeralBound then some n else none := by
  have hmeanings : Piece.meanings word = [Piece.kindOfWord word] := by
    simpa using Piece.meanings_word_append h.isWord Piece.endsWord_nil
  have hread := h.readNumeral_eq
  refine Option.ext fun v => ?_
  rw [parseNumber_eq_some_iff, String.toList_ofList, hmeanings, Piece.kindOfWord, hread]
  split_ifs
  · simp [h.isWord.newline_notMem]
  · simp

/-- A number as it is written in a notation, without zeros in front. -/
def Radix.write (r : Radix) (n : ℤ) : List Char :=
  (if n < 0 then ['-'] else []) ++ (r.mark ++ Nat.toDigits r.base n.natAbs)

theorem Radix.numeral_write (r : Radix) (n : ℤ) : Numeral n (r.write n) := by
  have hdigits := r.writes_toDigits n.natAbs
  rw [write]
  split_ifs with hn
  · have hminus := Numeral.minus hdigits
    rwa [Int.ofNat_natAbs_of_nonpos hn.le, neg_neg] at hminus
  · have hplain := Numeral.plain hdigits
    rwa [Int.natAbs_of_nonneg (not_lt.mp hn)] at hplain

/-- A numeral in upper case is a numeral of the same number. -/
theorem Numeral.map_toUpper {n : ℤ} {word : List Char} (h : Numeral n word) :
    Numeral n (word.map Char.toUpper) := by
  have hmark : ∀ r : Radix, r.mark.map Char.toUpper = r.mark := by
    intro r
    cases r <;> decide
  cases h with
  | @plain r n digits hdigits =>
      rw [List.map_append, hmark]
      exact .plain hdigits.map_toUpper
  | @minus r n digits hdigits =>
      rw [List.map_cons, List.map_append, hmark]
      exact .minus hdigits.map_toUpper

/-! ## In a recording -/

/-- What an object index in front of a text adds to its meaning. -/
theorem Piece.meanings_zero_append (text : List Char) :
    meanings ("0 ".toList ++ text) = .number 0 :: meanings text := by
  have hzero : Numeral 0 ['0'] := Numeral.plain (Radix.Writes.digit (r := .decimal) (by decide)
    (by decide))
  have hgap : IsGap [' '] := by simp [IsGap, isSeparator]
  exact hzero.meanings_append (by decide) hgap (by simp)

namespace Recording

/-- **A number alone is read as it is read in a recording.**  A line that is read as a number of 32
bits is read as this value of a frame behind an object index, and no other line is; a numeral is
read as its number exactly if the digits are below the bound; and every number has a numeral in each
notation, in lower and in upper case. -/
theorem parseNumber_agrees :
    (∀ (text : String) (v : ℤ), '\n' ∉ text.toList → -0x80000000 ≤ v → v < 0x80000000 →
      (parseNumber text = some v ↔ parse ("0 " ++ text) = .ok ⟨[⟨0, [v]⟩]⟩))
    ∧ (∀ (v : ℤ) (word : List Char), Numeral v word →
      parseNumber (String.ofList word) = if v.natAbs < 2 ^ 63 then some v else none)
    ∧ ∀ (r : Radix) (v : ℤ), Numeral v (r.write v) ∧ Numeral v ((r.write v).map Char.toUpper) := by
  refine ⟨?_, fun v word h => h.parseNumber_eq, fun r v => ?_⟩
  · intro text v hnewline hlow hhigh
    have hline : '\n' ∉ ("0 " ++ text).toList := by simpa using hnewline
    rw [parseNumber_eq_some_iff, parse_eq_singleton_iff hline, String.toList_append]
    constructor
    · rintro ⟨-, hmeanings⟩
      refine ⟨?_, by simp, by simpa using ⟨hlow, hhigh⟩⟩
      rw [Piece.meanings_zero_append, hmeanings]
      rfl
    · intro h
      have hmeanings := h.meanings_eq
      rw [Piece.meanings_zero_append] at hmeanings
      exact ⟨hnewline, (List.cons.inj hmeanings).2⟩
  · exact ⟨r.numeral_write v, (r.numeral_write v).map_toUpper⟩

/-- A number in the midst of separators with a comment behind it, and the least 64-bit integer,
whose digits reach the bound. -/
theorem parseNumber_agrees_surrounded :
    parseNumber ",\t-$1f ;é" = some (-31)
      ∧ parse ("0 " ++ ",\t-$1f ;é") = .ok ⟨[⟨0, [-31]⟩]⟩
      ∧ parseNumber "-9223372036854775808" = none := by
  have hpieces : Piece.all ",\t-$1f ;é".toList = [⟨.gap, [',', '\t']⟩,
      ⟨.number (-31), ['-', '$', '1', 'f']⟩, ⟨.gap, [' ']⟩, ⟨.gap, [';', 'é']⟩] := by cbv
  have h : parseNumber ",\t-$1f ;é" = some (-31) := by
    rw [parseNumber, hpieces]
    rfl
  have hwrite : "-9223372036854775808" = String.ofList (Radix.decimal.write (-2 ^ 63)) := by cbv
  obtain ⟨hline, hnumeral, hwritten⟩ := parseNumber_agrees
  refine ⟨h, (hline _ _ (by decide) (by decide) (by decide)).mp h, ?_⟩
  rw [hwrite, hnumeral _ _ (hwritten .decimal (-2 ^ 63)).1]
  rfl

end Recording

end DeltaScript
