import GreenTree.Json.Reader

/-!
# Texts in JSON

A text is read one character at a time, after its opening quote. Characters outside the basic plane
are escaped as two surrogates; a surrogate without its partner is refused, unless the text is
skipped and nobody will see it.
-/

namespace GreenTree.Json.Text

/-- What was just read: nothing special, a backslash, part of four hexadecimal digits, or a leading
surrogate that still lacks the backslash or the letter of its partner. -/
inductive State where
  | plain
  | escape
  | digits (left value : Nat) (leading : Option Nat)
  | needsBackslash (leading : Nat)
  | needsLetter (leading : Nat)

/-- The character of an escape by letter. -/
def escaped? : Char → Option Char
  | '"' => some '"'
  | '\\' => some '\\'
  | '/' => some '/'
  | 'b' => some '\x08'
  | 'f' => some '\x0c'
  | 'n' => some '\n'
  | 'r' => some '\r'
  | 't' => some '\t'
  | _ => none

/-- The value of a hexadecimal digit in either case. -/
def hexDigit? (c : Char) : Option Nat :=
  if '0' ≤ c ∧ c ≤ '9' then some (c.toNat - '0'.toNat)
  else if 'a' ≤ c ∧ c ≤ 'f' then some (c.toNat - 'a'.toNat + 10)
  else if 'A' ≤ c ∧ c ≤ 'F' then some (c.toNat - 'A'.toNat + 10)
  else none

def isLeading (n : Nat) : Bool := 0xD800 ≤ n && n ≤ 0xDBFF

def isTrailing (n : Nat) : Bool := 0xDC00 ≤ n && n ≤ 0xDFFF

/-- The code point of two surrogates. -/
def combine (leading trailing : Nat) : Nat :=
  0x10000 + (leading - 0xD800) * 0x400 + (trailing - 0xDC00)

/-- The state before four hexadecimal digits, for which at least four bytes must be left. -/
def beforeDigits (leading : Option Nat) (rest : List Char) : Except Refusal State :=
  if (rest.take 4).foldl (fun n c => n + c.utf8Size) 0 < 4 then .error .cutOff
  else .ok (.digits 4 0 leading)

/-- What four hexadecimal digits come to: a character, or a surrogate that waits. -/
def afterDigits (isSkipped : Bool) (value : Nat) : Option Nat → Except Refusal (Option Char × State)
  | none =>
    if isSkipped then .ok (none, .plain)
    else if isTrailing value then .error .malformed
    else if isLeading value then .ok (none, .needsBackslash value)
    else .ok (some (Char.ofNat value), .plain)
  | some leading =>
    if isTrailing value then .ok (some (Char.ofNat (combine leading value)), .plain)
    else .error .malformed

/-- One character inside a text: what it adds to the text and the state after it. -/
def step (isSkipped : Bool) (state : State) (c : Char) (rest : List Char) :
    Except Refusal (Option Char × State) :=
  match state with
  | .plain =>
    if c = '\\' then .ok (none, .escape)
    else if c.toNat < 0x20 then .error .malformed
    else .ok (some c, .plain)
  | .escape =>
    if c = 'u' then do
      let state ← beforeDigits none rest
      pure (none, state)
    else
      match escaped? c with
      | none => .error .malformed
      | some e => .ok (some e, .plain)
  | .digits left value leading =>
    match hexDigit? c with
    | none => .error .malformed
    | some d =>
      if left = 1 then afterDigits isSkipped (16 * value + d) leading
      else .ok (none, .digits (left - 1) (16 * value + d) leading)
  | .needsBackslash leading =>
    if c = '\\' then .ok (none, .needsLetter leading) else .error .malformed
  | .needsLetter leading =>
    if c = 'u' then do
      let state ← beforeDigits (some leading) rest
      pure (none, state)
    else
      .error .malformed

def isPlain : State → Bool
  | .plain => true
  | _ => false

/-- Reads up to the closing quote. -/
def scan (isSkipped : Bool) : State → String → List Char → Except Refusal (String × List Char)
  | _, _, [] => .error .cutOff
  | state, out, c :: rest =>
    if isPlain state && c == '"' then
      .ok (out, rest)
    else
      match step isSkipped state c rest with
      | .error r => .error r
      | .ok (none, state') => scan isSkipped state' out rest
      | .ok (some e, state') => scan isSkipped state' (out.push e) rest

/-- Consumes a text after its opening quote. -/
def read : Reader String := fun cs => scan false .plain "" cs

/-- Consumes a text after its opening quote without looking at what it says. -/
def skip : Reader Unit := fun cs => do
  let (_, rest) ← scan true .plain "" cs
  pure ((), rest)

/-- A hexadecimal digit of a number below 16, in lower case. -/
def hexDigit (n : Nat) : Char := (Nat.toDigits 16 n).headD '0'

/-- How a character is written inside quotes. -/
def encode (c : Char) : List Char :=
  if c = '"' then ['\\', '"']
  else if c = '\\' then ['\\', '\\']
  else if c = '\x08' then ['\\', 'b']
  else if c = '\x0c' then ['\\', 'f']
  else if c = '\n' then ['\\', 'n']
  else if c = '\r' then ['\\', 'r']
  else if c = '\t' then ['\\', 't']
  else if c.toNat < 0x20 then
    ['\\', 'u', '0', '0', hexDigit (c.toNat / 16), hexDigit (c.toNat % 16)]
  else [c]

/-- A text in quotes. -/
def quote (s : String) : String := String.ofList ('"' :: (s.toList.flatMap encode ++ ['"']))

end GreenTree.Json.Text
