import GreenTree.Fault
import GreenTree.Offset

/-!
# Spans

A span is a half-open range of offsets, kept as its start and its length. Its end is a sum, so
whatever asks for the end of a span may be stopped by an overflow.
-/

namespace GreenTree

/-- The offsets from `start`, `length` of them. -/
structure Span where
  start : UInt32
  length : UInt32
  deriving DecidableEq

namespace Span

/-- The span of a start and a length, refused when its end is no offset. -/
def ofLength (start length : UInt32) : Except Fault Span :=
  match Offset.sum? start length with
  | some _ => .ok ⟨start, length⟩
  | none => .error (.spanEndOverflow start length)

/-- The span from `start` up to `stop`, which must not come before it. -/
def between (start stop : UInt32) : Except Fault Span :=
  if start ≤ stop then .ok ⟨start, stop - start⟩ else .error (.boundsReversed start stop)

def emptyAt (position : UInt32) : Span := ⟨position, 0⟩

/-- The first offset after the span. -/
def stop (s : Span) : Except Fault UInt32 :=
  match Offset.sum? s.start s.length with
  | some e => .ok e
  | none => .error .additionOverflow

def isEmpty (s : Span) : Bool := s.length == 0

/-- Whether `position` is one of the offsets of the span. The difference wraps around, so a
position before the start is as far away as can be. -/
def holdsPosition (s : Span) (position : UInt32) : Bool :=
  position - s.start < s.length

/-- Whether `position` is an offset of the span or its end. -/
def touchesPosition (s : Span) (position : UInt32) : Bool :=
  position - s.start ≤ s.length

/-- Whether `t` lies inside `s`. -/
def covers (s t : Span) : Except Fault Bool :=
  if s.start ≤ t.start then do
    let inner ← t.stop
    let outer ← s.stop
    pure (decide (inner ≤ outer))
  else
    pure false

/-- The larger start and the smaller end of two spans. -/
def commonBounds (s t : Span) : Except Fault (UInt32 × UInt32) := do
  let stop ← s.stop
  let stop' ← t.stop
  pure (max s.start t.start, min stop stop')

/-- Whether the spans share an offset. -/
def overlaps (s t : Span) : Except Fault Bool := do
  let (start, stop) ← s.commonBounds t
  pure (decide (start < stop))

/-- The offsets that two overlapping spans share. -/
def overlap (s t : Span) : Except Fault (Option Span) := do
  let (start, stop) ← s.commonBounds t
  if start < stop then
    let shared ← between start stop
    pure (some shared)
  else
    pure none

/-- Whether the spans overlap or touch. -/
def touches (s t : Span) : Except Fault Bool := do
  let stop ← s.stop
  if t.start ≤ stop then
    let stop' ← t.stop
    pure (decide (s.start ≤ stop'))
  else
    pure false

/-- What two touching spans share, possibly an empty span. -/
def intersection (s t : Span) : Except Fault (Option Span) := do
  let (start, stop) ← s.commonBounds t
  if start ≤ stop then
    let shared ← between start stop
    pure (some shared)
  else
    pure none

/-- Spans are ordered by start, then by length. -/
instance : Ord Span where
  compare s t := (compare s.start t.start).then (compare s.length t.length)

end Span

/-- A value that lies somewhere: its span never changes. -/
class Spanned (α : Type) where
  span : α → Span

instance : Spanned Span := ⟨id⟩

/-- A value that carries a label lies where it lay. -/
instance {α β : Type} [Spanned α] : Spanned (α × β) := ⟨fun p => Spanned.span p.1⟩

end GreenTree
