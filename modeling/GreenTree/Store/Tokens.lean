import Std.Data.TreeMap
import GreenTree.Node.Basic

/-!
# Token tables

A token table remembers the id of every token that was made, so that equal tokens share one id.
Tokens are equal when their text, kind and flags are.
-/

namespace GreenTree

/-- What a token is looked up by. -/
structure TokenKey where
  text : String
  kind : Kind
  flags : Flags
  deriving DecidableEq

namespace TokenKey

/-- By text, then by kind, then by flags. -/
instance : Ord TokenKey where
  compare := compareLex (compareOn text)
    (compareLex (compareOn fun k => k.kind.code) (compareOn fun k => k.flags.bits))

instance : Std.TransOrd TokenKey :=
  inferInstanceAs (Std.TransCmp (compareLex (compareOn text)
    (compareLex (compareOn fun k => k.kind.code) (compareOn fun k => k.flags.bits))))

instance : Std.LawfulEqOrd TokenKey where
  eq_of_compare {a b} h := by
    obtain ⟨text, ⟨code⟩, ⟨bits⟩⟩ := a
    obtain ⟨text', ⟨code'⟩, ⟨bits'⟩⟩ := b
    obtain ⟨h1, h⟩ := Ordering.then_eq_eq.mp h
    obtain ⟨h2, h3⟩ := Ordering.then_eq_eq.mp h
    have e1 := Std.LawfulEqOrd.eq_of_compare (show compare text text' = .eq from h1)
    have e2 := Std.LawfulEqOrd.eq_of_compare (show compare code code' = .eq from h2)
    have e3 := Std.LawfulEqOrd.eq_of_compare (show compare bits bits' = .eq from h3)
    subst e1 e2 e3
    rfl

end TokenKey

/-- The ids of the tokens made so far. -/
structure TokenTable where
  ids : Std.TreeMap TokenKey NodeId

namespace TokenTable

def empty : TokenTable := ⟨∅⟩

def find? (t : TokenTable) (key : TokenKey) : Option NodeId := t.ids[key]?

def insert (t : TokenTable) (key : TokenKey) (id : NodeId) : TokenTable := ⟨t.ids.insert key id⟩

@[simp] theorem find?_empty (key : TokenKey) : empty.find? key = none := by
  simp [find?, empty]

theorem find?_insert (t : TokenTable) (key other : TokenKey) (id : NodeId) :
    (t.insert key id).find? other = if key = other then some id else t.find? other := by
  simp [find?, insert, Std.TreeMap.getElem?_insert]

end TokenTable
end GreenTree
