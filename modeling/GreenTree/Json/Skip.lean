import GreenTree.Json.Number
import GreenTree.Json.Text

/-!
# Skipping JSON values

A value that nobody wants must still be JSON. It is skipped with a stack of the brackets that are
open, so its depth does not matter. A number that the text breaks off is malformed here.
-/

namespace GreenTree.Json.Skip

inductive Bracket where
  | array
  | object
  deriving DecidableEq

/-- What comes next: a value, a member name, the first item after a bracket, or what may follow a
complete value. -/
inductive Stage where
  | value
  | name
  | opened
  | complete

/-- Consumes digits, of which there must be one. -/
def digits (cs : List Char) : Except Refusal (List Char) :=
  match cs with
  | [] => .error .malformed
  | c :: rest => if c.isDigit then .ok (rest.dropWhile Char.isDigit) else .error .malformed

/-- Consumes the digits before the point. -/
def integral (cs : List Char) : Except Refusal (List Char) :=
  match cs with
  | '0' :: c :: rest => if c.isDigit then .error .malformed else .ok (c :: rest)
  | _ => digits cs

def fraction (cs : List Char) : Except Refusal (List Char) :=
  match cs with
  | '.' :: rest => digits rest
  | _ => .ok cs

def exponent (cs : List Char) : Except Refusal (List Char) :=
  match cs with
  | c :: rest =>
    if c = 'e' || c = 'E' then
      match rest with
      | '+' :: r => digits r
      | '-' :: r => digits r
      | _ => digits rest
    else
      .ok cs
  | [] => .ok cs

/-- Consumes a number. -/
def number (cs : List Char) : Except Refusal (List Char) := do
  let rest ← integral (match cs with
    | '-' :: rest => rest
    | _ => cs)
  let rest ← fraction rest
  exponent rest

/-- Consumes a value that opens no bracket. -/
def scalar (cs : List Char) : Except Refusal (List Char) :=
  let rest (r : Reader Unit) (cs : List Char) := (r cs).map (·.2)
  match cs with
  | [] => .error .cutOff
  | 'n' :: r => rest (.literal ['u', 'l', 'l']) r
  | 't' :: r => rest (.literal ['r', 'u', 'e']) r
  | 'f' :: r => rest (.literal ['a', 'l', 's', 'e']) r
  | '"' :: r => rest Text.skip r
  | c :: _ => if c = '-' || c.isDigit then number cs else .error .malformed

/-- Consumes a member name and its colon. -/
def name (cs : List Char) : Except Refusal (List Char) :=
  match skipBlanks cs with
  | [] => .error .cutOff
  | '"' :: r => do
    let (_, rest) ← Text.skip r
    match skipBlanks rest with
    | [] => .error .cutOff
    | ':' :: rest => .ok rest
    | _ => .error .malformed
  | _ => .error .malformed

/-- Consumes what is left of a value in at most `fuel` turns. Of two turns in a row
one consumes a character. -/
def turns : Nat → List Bracket → Stage → List Char → Except Refusal (List Char)
  | 0, _, _, _ => .error .malformed
  | fuel + 1, enclosing, stage, cs =>
    match stage with
    | .value =>
      match skipBlanks cs with
      | '[' :: rest => turns fuel (.array :: enclosing) .opened rest
      | '{' :: rest => turns fuel (.object :: enclosing) .opened rest
      | cs => do
        let rest ← scalar cs
        turns fuel enclosing .complete rest
    | .name => do
      let rest ← name cs
      turns fuel enclosing .value rest
    | .opened =>
      match enclosing, skipBlanks cs with
      | _, [] => .error .cutOff
      | .array :: outer, ']' :: rest => turns fuel outer .complete rest
      | .object :: outer, '}' :: rest => turns fuel outer .complete rest
      | .object :: _, cs => turns fuel enclosing .name cs
      | _, cs => turns fuel enclosing .value cs
    | .complete =>
      match enclosing with
      | [] => .ok cs
      | bracket :: outer =>
        match bracket, skipBlanks cs with
        | _, [] => .error .cutOff
        | .array, ']' :: rest => turns fuel outer .complete rest
        | .object, '}' :: rest => turns fuel outer .complete rest
        | .array, ',' :: rest => turns fuel enclosing .value rest
        | .object, ',' :: rest => turns fuel enclosing .name rest
        | _, _ => .error .malformed

/-- Consumes any value. -/
def value : Reader Unit := fun cs => do
  let rest ← turns (2 * cs.length + 2) [] .value cs
  pure ((), rest)

end GreenTree.Json.Skip
