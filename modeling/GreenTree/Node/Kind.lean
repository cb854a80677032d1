/-!
# Kinds

A kind is a number whose meaning belongs to the grammar, except for the two reserved ones.
-/

namespace GreenTree

structure Kind where
  code : UInt16
  deriving DecidableEq

namespace Kind

/-- Reserved for the absence of a kind. -/
def absent : Kind := ⟨0⟩

/-- Reserved for list nodes. -/
def list : Kind := ⟨1⟩

/-- The first code that a grammar may use. -/
def firstGrammarCode : UInt16 := 2

def isGrammar (k : Kind) : Bool := firstGrammarCode ≤ k.code

instance : Ord Kind := ⟨fun a b => compare a.code b.code⟩

end Kind
end GreenTree
