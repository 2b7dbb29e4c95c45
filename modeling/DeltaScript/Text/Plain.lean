/-!
# Plain text

A text may hold control characters, and sequences of characters that steer a terminal.  The plain
text is what a reader sees who has no terminal: **white space stays, everything else that only
controls is left out**.

* `Sequence` — what kind of sequence a text is in the middle of, and `Sequence.advance`, which reads
  on in it.
* `Screening` — how far a text has been read.  White space inside a sequence is shown and suspends
  it: the text behind is shown too, up to the next control character.
* `plain` — the plain text.  `plain_of_visible` says that a text without control characters is its
  own plain text, and `isVisible_of_mem_screen` that no other texts are plain.
-/

namespace DeltaScript.Text

/-! ## Characters -/

def isControl (c : Char) : Bool :=
  c.toNat < 0x20 || c.toNat == 0x7F

/-- Whether a character is a tabulator or ends a line or a page. -/
def isBlankControl (c : Char) : Bool :=
  c == '\t' || c == '\n' || c == '\x0c' || c == '\r'

/-- Whether a character has a place in a plain text. -/
def isVisible (c : Char) : Bool :=
  !isControl c || isBlankControl c

/-- Whether a character of a sequence says more about the kind of the sequence. -/
def isIntermediate (c : Char) : Bool :=
  0x20 ≤ c.toNat && c.toNat < 0x30

/-- Whether the encoding of a character holds the byte by which strings are closed. -/
def closesString (c : Char) : Bool :=
  (String.utf8EncodeChar c).contains 0x9C

/-! ## Sequences -/

/-- What a text is in the middle of. -/
inductive Sequence
  /-- No sequence: the text itself. -/
  | text
  /-- A sequence that has only been opened. -/
  | opened
  /-- A sequence of a kind that is being spelled out. -/
  | escape
  /-- A sequence with parameters, up to the letter that ends it. -/
  | control
  /-- The head of a string for a device, with nothing in it so far. -/
  | deviceHead
  /-- The parameters in the head of a string for a device. -/
  | deviceParameters
  /-- The end of the head of a string for a device. -/
  | deviceKind
  /-- A string, for a device or for nobody. -/
  | string
  /-- A command to the system, such as the title of a window. -/
  | command
  deriving DecidableEq, Repr

namespace Sequence

/-- What a character opens behind the escape character. -/
def ofOpener (c : Char) : Sequence :=
  match c with
  | '[' => control
  | ']' => command
  | 'P' => deviceHead
  | 'X' => string
  | '^' => string
  | '_' => string
  | _ => if isIntermediate c then escape else text

/-- Where a text is after one more character that is no control character. -/
def advance (s : Sequence) (c : Char) : Sequence :=
  match s with
  | text => text
  | opened => ofOpener c
  | escape => if isIntermediate c then escape else text
  | control => if c.toNat < 0x40 then control else text
  | deviceHead =>
      if isIntermediate c then deviceKind
      else if c.toNat < 0x40 then deviceParameters else string
  | deviceParameters =>
      if isIntermediate c then deviceKind
      else if c.toNat < 0x3C then deviceParameters else string
  | deviceKind => if isIntermediate c then deviceKind else string
  | string => string
  | command => command

/-- Whether white space inside a sequence is shown. -/
def showsBlanks : Sequence → Bool
  | opened | escape | control => true
  | _ => false

end Sequence

/-! ## Texts -/

/-- How far a text has been read. -/
structure Screening where
  sequence : Sequence := .text
  /-- Whether the sequence is suspended. -/
  suspended : Bool := false
  deriving DecidableEq, Repr

namespace Screening

/-- Whether the text itself is being read, and no sequence. -/
def inText (s : Screening) : Bool :=
  s.suspended || s.sequence == .text

def shows (s : Screening) (c : Char) : Bool :=
  isVisible c && (s.inText || isBlankControl c && s.sequence.showsBlanks)

/-- Reads a character beyond the first 128.  In the text it ends a sequence that is suspended. -/
def readWide (s : Screening) (c : Char) : Screening :=
  if s.inText || s.sequence == .string && closesString c then {} else s

/-- Reads a control character that neither opens a sequence nor breaks one off. -/
def readControl (s : Screening) (c : Char) : Screening :=
  if isBlankControl c then { s with suspended := s.suspended || s.sequence.showsBlanks }
  else if s.sequence == .command && c == '\x07' then {}
  else { s with suspended := false }

def read (s : Screening) (c : Char) : Screening :=
  if c == '\x1b' then { sequence := .opened }
  else if c == '\x18' || c == '\x1a' then {}
  else if 0x80 ≤ c.toNat then s.readWide c
  else if isControl c then s.readControl c
  else if s.suspended then s
  else { s with sequence := s.sequence.advance c }

/-- What is shown of a text that is read on. -/
def screen (s : Screening) : List Char → List Char
  | [] => []
  | c :: rest => if s.shows c then c :: (s.read c).screen rest else (s.read c).screen rest

end Screening

def plain (text : String) : String :=
  String.ofList (({} : Screening).screen text.toList)

/-! ## What is plain -/

theorem isVisible_of_mem_screen (s : Screening) (l : List Char) :
    ∀ c ∈ s.screen l, isVisible c = true := by
  induction l generalizing s with
  | nil => simp [Screening.screen]
  | cons a rest ih =>
    intro c h
    unfold Screening.screen at h
    split at h
    · next shown =>
      rcases List.mem_cons.mp h with rfl | h
      · exact (Bool.and_eq_true_iff.mp shown).1
      · exact ih _ c h
    · exact ih _ c h

/-- A visible character of the text itself is shown. -/
theorem shows_text {c : Char} (h : isVisible c = true) : ({} : Screening).shows c = true := by
  simp [Screening.shows, Screening.inText, h]

/-- After a visible character of the text itself the text goes on. -/
theorem read_text {c : Char} (h : isVisible c = true) : ({} : Screening).read c = {} := by
  unfold Screening.read
  split
  · next escape => rw [eq_of_beq escape] at h; exact absurd h (by decide)
  split
  · rfl
  split
  · rfl
  split
  · next control =>
    have blank : isBlankControl c = true := by simpa [isVisible, control] using h
    simp [Screening.readControl, blank, Sequence.showsBlanks]
  · rfl

/-- **A text of visible characters is shown as it is.** -/
theorem screen_of_visible (l : List Char) (h : ∀ c ∈ l, isVisible c = true) :
    ({} : Screening).screen l = l := by
  induction l with
  | nil => rfl
  | cons c rest ih =>
    have visible := h c List.mem_cons_self
    rw [Screening.screen, if_pos (shows_text visible), read_text visible,
      ih fun d hd => h d (List.mem_cons_of_mem c hd)]

/-- **A text of visible characters is its own plain text.** -/
theorem plain_of_visible (text : String) (h : ∀ c ∈ text.toList, isVisible c = true) :
    plain text = text := by
  rw [plain, screen_of_visible _ h, String.ofList_toList]

end DeltaScript.Text
