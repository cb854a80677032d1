import GreenTree.Fault
import GreenTree.Offset
import GreenTree.Limits
import GreenTree.Hash.Multiplicative
import GreenTree.Node.Flags
import GreenTree.Node.Kind

/-!
# Nodes

A node knows its kind, its flags, its width and its children, but not its position, so one node can
stand at many places. A token is a node with a text; other nodes refer to their children by id.
-/

namespace GreenTree

/-- Names a node of an arena: a shard in the low six bits, the index inside it in the others. -/
structure NodeId where
  val : UInt32
  deriving DecidableEq

namespace NodeId

/-- Never names a node. -/
def nowhere : NodeId := ⟨4294967295⟩

instance : Ord NodeId := ⟨fun a b => compare a.val b.val⟩

/-- The hash by which an id enters the hash of its parent. -/
def hash (id : NodeId) : UInt32 := (Hash.Hasher.start.add id.val.toUInt64).finish.toUInt32

example : hash ⟨1⟩ = 398775787 ∧ hash ⟨64⟩ = 20282090 := by decide +kernel

end NodeId

/-- A remark about the text of a node; the offset counts from the start of that node. -/
structure Diagnostic where
  code : UInt32
  message : String
  offset : UInt32
  width : UInt32
  deriving DecidableEq

/-- An annotation: a mark on a node that survives edits. Its number makes it what it is. -/
structure Marker where
  number : Nat
  kind : Option String
  data : Option String

instance : BEq Marker := ⟨fun a b => a.number == b.number⟩

/-- What a node is looked up by: its kind, its flags and its slots, of which some may be empty. -/
structure NodeKey where
  kind : Kind
  flags : Flags
  slots : List (Option NodeId)
  deriving DecidableEq

namespace NodeKey

/-- The ids in the slots that are not empty. -/
def children (k : NodeKey) : List NodeId := k.slots.filterMap id

/-- The hash of a key, below `2 ^ 31`. Empty slots leave no trace in it. -/
def hash (k : NodeKey) : UInt32 :=
  let seed := k.flags.bits.toUInt32 ^^^ k.kind.code.toUInt32
  k.children.foldl (fun code child => code * 0xA5555529 + child.hash) seed &&& 0x7FFFFFFF

example : hash ⟨⟨42⟩, .present, [some ⟨1⟩, some ⟨2⟩]⟩ = 1812123093 := by decide +kernel

end NodeKey

/-- A node as an arena stores it. Diagnostics and annotations may be set to an empty list. -/
structure Node where
  key : NodeKey
  width : UInt32
  keyHash : UInt32
  text : Option String
  diagnostics : Option (List Diagnostic)
  annotations : Option (List Marker)

namespace Node

/-- A node without a text. -/
def interior (key : NodeKey) (width : UInt32) : Node :=
  { key, width, keyHash := key.hash, text := none, diagnostics := none, annotations := none }

/-- A token, as wide as its text has bytes. -/
def token (kind : Kind) (flags : Flags) (text : String) : Except Fault Node :=
  if text.utf8ByteSize ≤ Limits.maxWidth.toNat then
    let key : NodeKey := ⟨kind, flags, []⟩
    .ok { key, width := UInt32.ofNat text.utf8ByteSize, keyHash := key.hash, text := some text,
          diagnostics := none, annotations := none }
  else
    .error (.tokenTooLong text.utf8ByteSize)

def kind (n : Node) : Kind := n.key.kind

def flags (n : Node) : Flags := n.key.flags

def slots (n : Node) : List (Option NodeId) := n.key.slots

/-- The child in a slot, if there is such a slot and it is not empty. -/
def slot? (n : Node) (index : Nat) : Option NodeId := n.slots[index]?.join

def children (n : Node) : List NodeId := n.key.children

def isToken (n : Node) : Bool := n.text.isSome

def isMissing (n : Node) : Bool := n.flags.isMissing

/-- The node with more flags, and the hash that belongs to them. -/
def flag (n : Node) (more : Flags) : Node :=
  let key : NodeKey := { n.key with flags := n.flags ||| more }
  { n with key, keyHash := key.hash }

/-- The node with these diagnostics in place of any it had. -/
def diagnose (n : Node) (diagnostics : List Diagnostic) : Node :=
  { n.flag (.hasDiagnostics ||| .containsDiagnostics) with diagnostics := some diagnostics }

/-- The node with these annotations in place of any it had. -/
def annotate (n : Node) (annotations : List Marker) : Node :=
  { n.flag (.hasAnnotations ||| .containsAnnotations) with annotations := some annotations }

/-- Whether a cache may hold the node, or a parent of it. -/
def isCacheable (n : Node) : Bool :=
  !n.isMissing && !n.flags.isDecorated && n.slots.length ≤ Limits.maxCachedSlots

/-- The hash that decides in which shard of an arena the node is stored. -/
def contentHash (n : Node) : UInt64 :=
  let h := Hash.Hasher.start
    |>.add n.kind.code.toUInt64
    |>.add n.keyHash.toUInt64
    |>.add n.width.toUInt64
  match n.text with
  | none => (h.add 0).finish
  | some text => (h.add 1 |>.add (Hash.ofText text) |>.add 0xff).finish

end Node
end GreenTree
