/-! # Spans

    A span is the half-open range `[start, stop)` of byte positions that a
    token, a tree node or an error occupies in a content stream.

    * **Join**: the smallest span that covers two spans, whatever their order.
    * **Shift**: the same range in a stream that has more bytes in front.
-/

namespace PageContent

/-- The half-open byte range `[start, stop)`. A range that ends before it
    starts is empty. -/
structure Span where
  start : Nat
  stop : Nat
  deriving DecidableEq, Repr, Inhabited

namespace Span

/-- The smallest span that covers both. -/
def join (a b : Span) : Span :=
  ⟨min a.start b.start, max a.stop b.stop⟩

/-- The number of positions in the range. -/
def length (s : Span) : Nat :=
  s.stop - s.start

def isEmpty (s : Span) : Bool :=
  s.length == 0

/-- The range after `n` more bytes have been put in front of the stream. -/
def shift (n : Nat) (s : Span) : Span :=
  ⟨s.start + n, s.stop + n⟩

/-- A span is written `start..stop`. -/
def text (s : Span) : String :=
  s!"{s.start}..{s.stop}"

/-- The span from the start of the first of a run of parts to the end of the
    last; a run without parts lies at `[0, 0)`. -/
def ofRun : List Span → Span
  | [] => ⟨0, 0⟩
  | first :: rest => first.join (rest.getLastD first)

/-- The part of `bytes` in the range. Positions past the end of the bytes
    count as the end. -/
def slice {α : Type} (s : Span) (bytes : List α) : List α :=
  (bytes.take s.stop).drop s.start

/-! ## Laws -/

theorem join_comm (a b : Span) : a.join b = b.join a := by
  simp [join, Nat.min_comm, Nat.max_comm]

theorem join_assoc (a b c : Span) : (a.join b).join c = a.join (b.join c) := by
  simp [join, Nat.min_assoc, Nat.max_assoc]

@[simp] theorem join_self (a : Span) : a.join a = a := by
  simp [join]

/-- Shifting commutes with joining. -/
theorem shift_join (n : Nat) (a b : Span) :
    (a.join b).shift n = (a.shift n).join (b.shift n) := by
  simp [join, shift, Nat.add_min_add_right, Nat.add_max_add_right]

@[simp] theorem length_shift (n : Nat) (s : Span) : (s.shift n).length = s.length := by
  simp only [length, shift]; omega

end Span

end PageContent
