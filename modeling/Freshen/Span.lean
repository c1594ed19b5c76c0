/-!
# Source spans

A span is a pair of byte offsets into one source text.  Every token and every tree node carries
one.

- `Span.merge`: the smallest span that covers both arguments.
- `Span.ofRange`, `Span.ofRange?`: offsets as they come from a text of any size; a span holds
  offsets up to `Span.maxOffset`, and what does not fit is cut to that bound or refused.
-/

namespace Freshen

/-- Byte offsets of a piece of source text; `stop` is the first offset after it. -/
structure Span where
  start : Nat
  stop : Nat
deriving DecidableEq, Inhabited

namespace Span

/-- The largest offset that a span can hold. -/
def maxOffset : Nat := UInt32.size - 1

/-- The empty span at `offset`. -/
def point (offset : Nat) : Span := ⟨offset, offset⟩

/-- Spans of nodes that come from no source text. -/
def nowhere : Span := point 0

/-- Number of bytes covered. -/
def size (s : Span) : Nat := s.stop - s.start

/-- Whether no byte is covered. -/
def isEmpty (s : Span) : Bool := s.start == s.stop

/-- The smallest span that covers both arguments. -/
def merge (a b : Span) : Span := ⟨min a.start b.start, max a.stop b.stop⟩

/-- The written form, `start..stop`. -/
def text (s : Span) : String := s!"{s.start}..{s.stop}"

/-- Why a range of offsets is no span. -/
inductive RangeError where
  | startTooLarge (offset : Nat)
  | endTooLarge (offset : Nat)
deriving DecidableEq

/-- The wording of a range error. -/
def RangeError.message : RangeError → String
  | .startTooLarge offset => s!"span start {offset} exceeds u32::MAX"
  | .endTooLarge offset => s!"span end {offset} exceeds u32::MAX"

/-- The span of a range, or the first of its offsets that does not fit. -/
def ofRange? (start stop : Nat) : Except RangeError Span :=
  if maxOffset < start then .error (.startTooLarge start)
  else if maxOffset < stop then .error (.endTooLarge stop)
  else .ok ⟨start, stop⟩

/-- The span of a range; if an offset does not fit, the span reaches to `maxOffset`. -/
def ofRange (start stop : Nat) : Span :=
  match ofRange? start stop with
  | .ok span => span
  | .error _ => ⟨min start maxOffset, maxOffset⟩

/-- In a text whose size fits, the span of a range is the range. -/
theorem ofRange_eq {start stop : Nat} (hstart : start ≤ maxOffset) (hstop : stop ≤ maxOffset) :
    ofRange start stop = ⟨start, stop⟩ := by
  simp [ofRange, ofRange?, Nat.not_lt.2 hstart, Nat.not_lt.2 hstop]

/-- A span covers itself. -/
@[simp] theorem merge_self (a : Span) : a.merge a = a := by simp [merge]

end Span

end Freshen
