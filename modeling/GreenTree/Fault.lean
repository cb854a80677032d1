/-!
# Faults

Every check that can stop an operation, with the text it is reported by. An operation that may be
stopped returns in `Except Fault`.
-/

namespace GreenTree

/-- The checks that stop an operation. -/
inductive Fault where
  | spanEndOverflow (start length : UInt32)
  | boundsReversed (start stop : UInt32)
  | queryEndOverflow (start length : UInt32)
  | additionOverflow
  | shiftOverflow
  | shardFull (shard : Nat)
  | tokenTooLong (bytes : Nat)
  | endlessWalk
  deriving DecidableEq

/-- The report of a fault. -/
def Fault.message : Fault → String
  | .spanEndOverflow start length => s!"span end overflows u32: start={start}, length={length}"
  | .boundsReversed start stop => s!"span start {start} is after end {stop}"
  | .queryEndOverflow start length => s!"query end overflows u32: start={start}, length={length}"
  | .additionOverflow => "attempt to add with overflow"
  | .shiftOverflow => "attempt to shift left with overflow"
  | .shardFull shard => s!"green arena shard {shard} is full"
  | .tokenTooLong bytes => s!"token text of {bytes} bytes exceeds the u32 offset space"
  | .endlessWalk => "walk over a tree that contains itself"

end GreenTree
