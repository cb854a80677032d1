import GreenTree.Brace.Pair
import GreenTree.Cache.Config
import GreenTree.Cache.Counters
import GreenTree.Json.Decode
import GreenTree.Node.Basic

/-!
# Records in JSON

The values of this library that are written as JSON, and their readers. A record is written as an
object without blanks, its fields in a fixed order.
-/

namespace GreenTree.Json

/-- An object with these members, whose values are written already. -/
def object (members : List (String × String)) : String :=
  let member (p : String × String) := Text.quote p.1 ++ ":" ++ p.2
  "\x7b" ++ ",".intercalate (members.map member) ++ "\x7d"

/-- A field that holds a 32-bit word. -/
def wordField {σ : Type} (name : String) (get : σ → Option UInt32) (set : σ → UInt32 → σ) :
    Decode.Field σ where
  name := name
  isSet partialRecord := (get partialRecord).isSome
  read partialRecord := do
    let n ← Decode.natural 4294967295
    pure (set partialRecord (UInt32.ofNat n))

def readKind : Reader Kind := do
  let n ← Decode.natural 65535
  pure ⟨UInt16.ofNat n⟩

def writeKind (k : Kind) : String := toString k.code

def readNodeId : Reader NodeId := do
  let n ← Decode.natural 4294967295
  pure ⟨UInt32.ofNat n⟩

def writeNodeId (id : NodeId) : String := toString id.val

/-- A span of which both fields may be missing. -/
structure PartialSpan where
  start : Option UInt32 := none
  length : Option UInt32 := none

/-- Any start and length are read; whether the span has an end is not asked. -/
def readSpan : Reader Span :=
  Decode.record
    [wordField "start" PartialSpan.start fun s n => { s with start := some n },
      wordField "length" PartialSpan.length fun s n => { s with length := some n }]
    {}
    fun s => do
      let start ← s.start
      let length ← s.length
      pure ⟨start, length⟩

def writeSpan (s : Span) : String :=
  object [("start", toString s.start), ("length", toString s.length)]

structure PartialPair where
  opening : Option Span := none
  closing : Option Span := none

def readPair : Reader BracePair :=
  Decode.record
    [{ name := "open", isSet := fun p => p.opening.isSome,
       read := fun p => do
         let span ← readSpan
         pure { p with opening := some span } },
      { name := "close", isSet := fun p => p.closing.isSome,
        read := fun p => do
          let span ← readSpan
          pure { p with closing := some span } }]
    ({} : PartialPair)
    fun p => do
      let opening ← p.opening
      let closing ← p.closing
      pure ⟨opening, closing⟩

def writePair (p : BracePair) : String :=
  object [("open", writeSpan p.opening), ("close", writeSpan p.closing)]

structure PartialDiagnostic where
  code : Option UInt32 := none
  message : Option String := none
  offset : Option UInt32 := none
  width : Option UInt32 := none

def readDiagnostic : Reader Diagnostic :=
  Decode.record
    [wordField "code" PartialDiagnostic.code fun d n => { d with code := some n },
      { name := "message", isSet := fun d => d.message.isSome,
        read := fun d => do
          let message ← Decode.text
          pure { d with message := some message } },
      wordField "offset" PartialDiagnostic.offset fun d n => { d with offset := some n },
      wordField "width" PartialDiagnostic.width fun d n => { d with width := some n }]
    {}
    fun d => do
      let code ← d.code
      let message ← d.message
      let offset ← d.offset
      let width ← d.width
      pure ⟨code, message, offset, width⟩

def writeDiagnostic (d : Diagnostic) : String :=
  object [("code", toString d.code), ("message", Text.quote d.message),
    ("offset", toString d.offset), ("width", toString d.width)]

/-- A missing size is the default one. -/
def readConfig : Reader Cache.Config :=
  Decode.record
    [wordField "size_bits" id fun _ n => some n]
    none
    fun size => some ⟨size.getD Cache.Config.default.sizeBits⟩

def writeConfig (c : Cache.Config) : String := object [("size_bits", toString c.sizeBits)]

def writeCounters (c : Cache.Counters) : String :=
  object [("lookups", toString c.lookups), ("hits", toString c.hits),
    ("misses", toString c.misses), ("ineligible", toString c.ineligible),
    ("adds", toString c.adds), ("rejected_adds", toString c.rejectedAdds),
    ("evictions", toString c.evictions)]

end GreenTree.Json
