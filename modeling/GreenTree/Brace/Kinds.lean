import GreenTree.Node.Kind

/-!
# Brace kinds

Which kind of token closes which.
-/

namespace GreenTree

/-- Pairs of an opening kind and the kind that closes it, the latest first. -/
structure BraceKinds where
  pairs : List (Kind × Kind)

namespace BraceKinds

def empty : BraceKinds := ⟨[]⟩

/-- One more pair, in place of an earlier one of the same opening kind. A pair of which the grammar
lacks one kind is skipped. -/
def add (b : BraceKinds) (opening closing : Option Kind) : BraceKinds :=
  match opening, closing with
  | some o, some c => ⟨(o, c) :: b.pairs⟩
  | _, _ => b

def ofList (pairs : List (Kind × Kind)) : BraceKinds :=
  pairs.foldl (fun b p => b.add (some p.1) (some p.2)) empty

/-- The kind that closes `opening`. -/
def closing? (b : BraceKinds) (opening : Kind) : Option Kind := b.pairs.lookup opening

def isEmpty (b : BraceKinds) : Bool := b.pairs.isEmpty

end BraceKinds
end GreenTree
