/-!
# Spans

A piece of a source text is named by the byte offsets of its two ends.
-/

namespace DeltaScript

/-- A stretch of a text: the byte offset where it starts and the one just behind it. -/
structure Span where
  start : Nat
  stop : Nat
  deriving DecidableEq, Repr

namespace Span

/-- The number of bytes in the stretch. -/
def length (s : Span) : Nat :=
  s.stop - s.start

/-- Whether the stretch holds nothing. -/
def isEmpty (s : Span) : Bool :=
  s.start == s.stop

end Span

/-- The number of bytes that characters take up in a text. -/
def byteCount (cs : List Char) : Nat :=
  cs.foldr (fun c n => c.utf8Size + n) 0

@[simp] theorem byteCount_nil : byteCount [] = 0 := rfl

@[simp] theorem byteCount_cons (c : Char) (cs : List Char) :
    byteCount (c :: cs) = c.utf8Size + byteCount cs := rfl

@[simp] theorem byteCount_append (cs ds : List Char) :
    byteCount (cs ++ ds) = byteCount cs + byteCount ds := by
  induction cs with
  | nil => simp
  | cons c cs ih => rw [List.cons_append, byteCount_cons, byteCount_cons, ih, Nat.add_assoc]

end DeltaScript
