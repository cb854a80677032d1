import GreenTree.Store.Basic

/-!
# Sessions

What all stores of one process share: the numbers that tell stores and annotations apart, and one
store for everybody, made when it is first asked for.
-/

namespace GreenTree

structure Session where
  nextInstance : Nat
  nextMarker : Nat
  shared : Option Store

namespace Session

/-- Numbers count from one. -/
def start : Session := ⟨1, 1, none⟩

/-- A store over `cache`, with a number of its own. -/
def newStore (s : Session) (cache : Cache) : Store × Session :=
  (.ofCache s.nextInstance cache, { s with nextInstance := s.nextInstance + 1 })

/-- A store whose cache has the configured size. A refused configuration takes no number. -/
def configuredStore (s : Session) (config : Cache.Config) :
    Except Cache.ConfigError (Store × Session) := do
  let cache ← Cache.ofConfig config
  pure (s.newStore cache)

/-- An annotation that equals no other one. -/
def marker (s : Session) (kind data : Option String) : Marker × Session :=
  (⟨s.nextMarker, kind, data⟩, { s with nextMarker := s.nextMarker + 1 })

/-- The store for everybody. -/
def sharedStore (s : Session) : Store × Session :=
  match s.shared with
  | some store => (store, s)
  | none =>
    let (store, s') := s.newStore .default
    (store, { s' with shared := some store })

/-- Keeps what became of the store for everybody. -/
def keepShared (s : Session) (store : Store) : Session := { s with shared := some store }

end Session
end GreenTree
