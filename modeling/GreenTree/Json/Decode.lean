import GreenTree.Json.Skip

/-!
# Decoding JSON

Readers for the values that records are made of. A record is an object whose members come in any
order, or an array of its fields in order. Members that are not fields are skipped.
-/

namespace GreenTree.Json.Decode

/-- Refuses a value that is not of the wanted type. A number, a text or a word is read before it is
found unfit, and is refused for what is wrong with itself first. -/
def wrongType {α : Type} : Reader α := do
  match ← get with
  | 'n' :: rest => do
    set rest
    Reader.literal ['u', 'l', 'l']
    throw .unfit
  | 't' :: rest => do
    set rest
    Reader.literal ['r', 'u', 'e']
    throw .unfit
  | 'f' :: rest => do
    set rest
    Reader.literal ['a', 'l', 's', 'e']
    throw .unfit
  | '"' :: rest => do
    set rest
    let _ ← Text.read
    throw .unfit
  | '[' :: _ => throw .unfit
  | '{' :: _ => throw .unfit
  | c :: _ =>
    if c = '-' || c.isDigit then do
      let _ ← Numeral.read
      throw .unfit
    else
      throw .malformed
  | [] => throw .cutOff

/-- Consumes a natural number that is at most `largest`. -/
def natural (largest : Nat) : Reader Nat := do
  match ← Reader.peek with
  | none => throw .cutOff
  | some c =>
    if c = '-' || c.isDigit then do
      match ← Numeral.read with
      | .natural n => if n ≤ largest then pure n else throw .unfit
      | .other => throw .unfit
    else
      wrongType

/-- Consumes a text. -/
def text : Reader String := do
  match ← Reader.peek with
  | none => throw .cutOff
  | some '"' => do
    Reader.advance
    Text.read
  | some _ => wrongType

/-- A field of a record that is read into a partial record `σ`. -/
structure Field (σ : Type) where
  name : String
  isSet : σ → Bool
  read : σ → Reader σ

/-- Consumes a colon. -/
def colon : Reader Unit := do
  match ← Reader.peek with
  | none => throw .cutOff
  | some ':' => Reader.advance
  | some _ => throw .malformed

/-- Consumes a member after the opening quote of its name. A field that is set already is refused
as soon as it is named. -/
def member {σ : Type} (fields : List (Field σ)) (partialRecord : σ) : Reader σ := do
  let name ← Text.read
  match fields.find? (·.name == name) with
  | none => do
    colon
    Skip.value
    pure partialRecord
  | some field =>
    if field.isSet partialRecord then
      throw .unfit
    else do
      colon
      field.read partialRecord

/-- Consumes at most `fuel` members, each after a comma, up to the closing brace. -/
def laterMembers {σ : Type} (fields : List (Field σ)) : Nat → σ → Reader σ
  | 0, _ => throw .malformed
  | fuel + 1, partialRecord => do
    match ← Reader.peek with
    | none => throw .cutOff
    | some '}' => pure partialRecord
    | some ',' => do
      Reader.advance
      match ← Reader.peek with
      | none => throw .cutOff
      | some '"' => do
        Reader.advance
        let more ← member fields partialRecord
        laterMembers fields fuel more
      | some _ => throw .malformed
    | some _ => throw .malformed

/-- Consumes the members of an object up to its closing brace. -/
def members {σ : Type} (fields : List (Field σ)) (start : σ) : Reader σ := do
  match ← Reader.peek with
  | none => throw .cutOff
  | some '}' => pure start
  | some '"' => do
    Reader.advance
    let first ← member fields start
    laterMembers fields ((← get).length + 1) first
  | some _ => throw .malformed

/-- Consumes the items of an array, one for each field, and stops where the array ends. -/
def items {σ : Type} : (isFirst : Bool) → List (Field σ) → σ → Reader σ
  | _, [], partialRecord => pure partialRecord
  | isFirst, field :: later, partialRecord => do
    match ← Reader.peek with
    | none => throw .cutOff
    | some ']' => pure partialRecord
    | some c =>
      if isFirst then do
        let more ← field.read partialRecord
        items false later more
      else if c = ',' then do
        Reader.advance
        match ← Reader.peek with
        | none => throw .cutOff
        | some ']' => throw .malformed
        | some _ => do
          let more ← field.read partialRecord
          items false later more
      else
        throw .malformed

/-- Consumes a closing bracket. -/
def close (bracket : Char) : Reader Unit := do
  match ← Reader.peek with
  | none => throw .cutOff
  | some c => if c = bracket then Reader.advance else throw .malformed

/-- Consumes a record. What was read of it is unfit where `finish` finds it incomplete. -/
def record {σ α : Type} (fields : List (Field σ)) (start : σ) (finish : σ → Option α) :
    Reader α := do
  let complete (partialRecord : σ) : Reader α :=
    match finish partialRecord with
    | none => throw .unfit
    | some a => pure a
  match ← Reader.peek with
  | none => throw .cutOff
  | some '{' => do
    Reader.advance
    let a ← complete (← members fields start)
    close '}'
    pure a
  | some '[' => do
    Reader.advance
    let a ← complete (← items true fields start)
    close ']'
    pure a
  | some _ => wrongType

/-- Reads a whole text. -/
def whole {α : Type} (reader : Reader α) (s : String) : Except Refusal α := do
  let (a, rest) ← reader s.toList
  if (skipBlanks rest).isEmpty then pure a else throw .malformed

end GreenTree.Json.Decode
