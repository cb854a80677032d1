/-!
# Multiplicative hashing

Words are added to a 64-bit state and scaled by an odd multiplier; a rotation at the end brings the
well-mixed high bits down. Text is first condensed to one word by folding 128-bit products.
-/

namespace GreenTree.Hash

/-- The running state of a hash. -/
structure Hasher where
  state : UInt64

namespace Hasher

def start : Hasher := ⟨0⟩

def multiplier : UInt64 := 0xf1357aea2e62a9c5

def add (h : Hasher) (word : UInt64) : Hasher := ⟨(h.state + word) * multiplier⟩

/-- The state rotated to the left by 26 bits. -/
def finish (h : Hasher) : UInt64 := h.state <<< 26 ||| h.state >>> 38

end Hasher

/-- The two halves of a 128-bit product, combined. -/
def foldProduct (a b : UInt64) : UInt64 :=
  let product := a.toNat * b.toNat
  UInt64.ofNat product ^^^ UInt64.ofNat (product >>> 64)

/-- The number whose digits to the base 256 are the bytes, the least first. -/
def littleEndian : List UInt8 → UInt64
  | [] => 0
  | b :: rest => b.toUInt64 ||| littleEndian rest <<< 8

/-- Absorbs `count` blocks of 16 bytes into two seeds that change places. -/
def absorbBlocks : Nat → List UInt8 → UInt64 × UInt64 → UInt64 × UInt64
  | 0, _, seeds => seeds
  | count + 1, bytes, (a, b) =>
    let low := littleEndian (bytes.take 8)
    let high := littleEndian ((bytes.drop 8).take 8)
    absorbBlocks count (bytes.drop 16) (b, foldProduct (a ^^^ low) (0xa4093822299f31d0 ^^^ high))

/-- Two words that together hold every byte of a text of at most 16 bytes, or the last 16 bytes of a
longer one. Short texts are read from both ends, with an overlap. -/
def endWords (bytes : List UInt8) : UInt64 × UInt64 :=
  let n := bytes.length
  let word (size : Nat) := littleEndian (bytes.take size)
  let lastWord (size : Nat) := littleEndian (bytes.drop (n - size))
  if n = 0 then (0, 0)
  else if n < 4 then
    (word 1, lastWord 1 <<< 8 ||| littleEndian ((bytes.drop (n / 2)).take 1))
  else if n < 8 then (word 4, lastWord 4)
  else if n ≤ 16 then (word 8, lastWord 8)
  else (littleEndian ((bytes.drop (n - 16)).take 8), lastWord 8)

/-- One word for a text. -/
def ofBytes (bytes : List UInt8) : UInt64 :=
  let n := bytes.length
  let (a, b) := absorbBlocks ((n - 1) / 16) bytes (0x243f6a8885a308d3, 0x13198a2e03707344)
  let (x, y) := endWords bytes
  foldProduct (a ^^^ x) (b ^^^ y) ^^^ UInt64.ofNat n

/-- One word for the bytes of a string. -/
def ofText (text : String) : UInt64 := ofBytes text.toUTF8.toList

example : ofText "" = 0xbc13060e2d1aac79 := by decide +kernel

example : ofText "abc" = 0x800f6fadd6111505 := by decide +kernel

example : ofBytes (List.replicate 8 120) = 0xd748abe0d811e096 := by decide +kernel

example : ofBytes (List.replicate 33 120) = 0xc75d1ec59c34c440 := by decide +kernel

end GreenTree.Hash
