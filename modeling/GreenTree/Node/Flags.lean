/-!
# Flags

A set of flags is a 16-bit word of which nine bits have a meaning. The other bits may be set and are
kept by every operation but the complement, which never produces them.
-/

namespace GreenTree

structure Flags where
  bits : UInt16
  deriving DecidableEq

namespace Flags

def none : Flags := ⟨0⟩

/-- The node is really there, and no stand-in for one that was expected. -/
def present : Flags := ⟨0x001⟩

def hasDiagnostics : Flags := ⟨0x002⟩

def hasAnnotations : Flags := ⟨0x004⟩

def containsDiagnostics : Flags := ⟨0x008⟩

def containsAnnotations : Flags := ⟨0x010⟩

def containsSkippedText : Flags := ⟨0x020⟩

def asyncContext : Flags := ⟨0x040⟩

def awaitContext : Flags := ⟨0x080⟩

def queryContext : Flags := ⟨0x100⟩

/-- All bits that have a meaning. -/
def known : Flags := ⟨0x1FF⟩

instance : OrOp Flags := ⟨fun f g => ⟨f.bits ||| g.bits⟩⟩

instance : AndOp Flags := ⟨fun f g => ⟨f.bits &&& g.bits⟩⟩

instance : XorOp Flags := ⟨fun f g => ⟨f.bits ^^^ g.bits⟩⟩

/-- The flags of `f` that are not in `g`, bits without a meaning included. -/
instance : SDiff Flags := ⟨fun f g => ⟨f.bits &&& ~~~g.bits⟩⟩

/-- The known flags that are not in `f`. -/
instance : Complement Flags := ⟨fun f => ⟨known.bits &&& ~~~f.bits⟩⟩

/-- Whether all of `g` is in `f`. -/
def includes (f g : Flags) : Bool := f &&& g == g

/-- Whether some of `g` is in `f`. -/
def meets (f g : Flags) : Bool := f &&& g != none

/-- What a node takes over from its children. -/
def inheritance : Flags := containsDiagnostics ||| containsAnnotations ||| containsSkippedText

/-- What keeps a node and everything above it out of the cache. -/
def decoration : Flags :=
  hasDiagnostics ||| hasAnnotations ||| containsDiagnostics ||| containsAnnotations

def isMissing (f : Flags) : Bool := !f.includes present

def isDecorated (f : Flags) : Bool := f.meets decoration

/-- What a parent of a node with these flags takes over. -/
def inherited (f : Flags) : Flags := f &&& inheritance

/-- The known flags without decoration, which are all that a caller may ask for. -/
def undecorated (f : Flags) : Flags := f &&& ~~~decoration

/-- The flags of a token: what a caller may ask for, and always present. -/
def ofToken (f : Flags) : Flags := f.undecorated ||| present

/-- The names of the flags, by ascending bit. -/
def names : List (Flags × String) :=
  [(present, "IS_NOT_MISSING"), (hasDiagnostics, "HAS_DIAGNOSTICS"),
    (hasAnnotations, "HAS_ANNOTATIONS"), (containsDiagnostics, "CONTAINS_DIAGNOSTICS"),
    (containsAnnotations, "CONTAINS_ANNOTATIONS"),
    (containsSkippedText, "CONTAINS_SKIPPED_TEXT"), (asyncContext, "IN_ASYNC_CONTEXT"),
    (awaitContext, "IN_AWAIT_CONTEXT"), (queryContext, "IN_QUERY_CONTEXT")]

/-- Lower-case hexadecimal notation, marked by `0x`. -/
def hexadecimal (n : Nat) : String := "0x" ++ String.ofList (Nat.toDigits 16 n)

/-- The flags by name, and what has no name as a number. -/
def text (f : Flags) : String :=
  let named := (names.filter fun p => f.includes p.1).map (·.2)
  let rest := f \ known
  let parts := if rest = none then named else named ++ [hexadecimal rest.bits.toNat]
  "NodeFlags(" ++ (if parts.isEmpty then hexadecimal 0 else " | ".intercalate parts) ++ ")"

example : text ⟨0x205⟩ = "NodeFlags(IS_NOT_MISSING | HAS_ANNOTATIONS | 0x200)" := by decide +kernel

example : text none = "NodeFlags(0x0)" := by decide +kernel

end Flags
end GreenTree
