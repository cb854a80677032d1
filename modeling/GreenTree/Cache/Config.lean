import GreenTree.Fault
import GreenTree.Limits

/-!
# Size of a cache

A cache has a power of two of slots. The exponent is kept within limits.
-/

namespace GreenTree
namespace Cache

/-- Number of slots of a cache of this size. -/
def slotCount (sizeBits : Nat) : Nat := 1 <<< sizeBits

theorem slotCount_pos (sizeBits : Nat) : 0 < slotCount sizeBits := by
  rw [slotCount, Nat.one_shiftLeft]
  exact Nat.two_pow_pos sizeBits

structure Config where
  sizeBits : UInt32
  deriving DecidableEq

/-- Why a configuration is refused. -/
inductive ConfigError where
  | sizeBitsOutOfRange (actual min max : UInt32)
  deriving DecidableEq

def ConfigError.message : ConfigError → String
  | .sizeBitsOutOfRange actual min max =>
    s!"node cache size_bits must be in {min}..={max}, got {actual}"

namespace Config

def default : Config := ⟨Limits.defaultSizeBits⟩

def validate (c : Config) : Except ConfigError Unit :=
  if Limits.minSizeBits ≤ c.sizeBits ∧ c.sizeBits ≤ Limits.maxSizeBits then
    .ok ()
  else
    .error (.sizeBitsOutOfRange c.sizeBits Limits.minSizeBits Limits.maxSizeBits)

/-- Number of slots, which must fit in a 64-bit word. -/
def capacity (c : Config) : Except Fault Nat :=
  if c.sizeBits < 64 then .ok (slotCount c.sizeBits.toNat) else .error .shiftOverflow

end Config
end Cache
end GreenTree
