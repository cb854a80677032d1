import GreenTree.Span.Basic

/-!
# Brace pairs

The spans of an opening token and of the token that closes it.
-/

namespace GreenTree

structure BracePair where
  opening : Span
  closing : Span
  deriving DecidableEq

/-- From the start of the opening token to the end of the closing one. -/
def BracePair.span (p : BracePair) : Except Fault Span := do
  let stop ← p.closing.stop
  Span.between p.opening.start stop

end GreenTree
