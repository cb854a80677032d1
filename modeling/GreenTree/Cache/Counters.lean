import GreenTree.Fault

/-!
# Counters of a cache

What has happened to a cache, in 64-bit counters that wrap around.
-/

namespace GreenTree.Cache

structure Counters where
  lookups : UInt64 := 0
  hits : UInt64 := 0
  misses : UInt64 := 0
  ineligible : UInt64 := 0
  adds : UInt64 := 0
  rejectedAdds : UInt64 := 0
  evictions : UInt64 := 0
  deriving DecidableEq

namespace Counters

/-- The lookups that could have been hits. -/
def eligible (c : Counters) : Except Fault UInt64 :=
  if c.hits.toNat + c.misses.toNat < UInt64.size then
    .ok (c.hits + c.misses)
  else
    .error .additionOverflow

/-- The share of hits among the eligible lookups, and zero where there were none. -/
def hitRate (c : Counters) : Except Fault Float := do
  let eligible ← c.eligible
  pure (if eligible = 0 then 0 else c.hits.toFloat / eligible.toFloat)

end Counters
end GreenTree.Cache
