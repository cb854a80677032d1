import GreenTree.Json.Reader

/-!
# Numbers in JSON

A number is kept as a natural number where it is one below `2 ^ 64`, written without a sign, a
fraction or an exponent. All other numbers are known only as such, but even they are refused when no
double comes near them.
-/

namespace GreenTree.Json

/-- A number as far as it matters here. -/
inductive Numeral where
  | natural (n : Nat)
  | other
  deriving DecidableEq

namespace Numeral

/-- A significand below `2 ^ 64` and a decimal exponent. A significand takes in digits until the
next one would not fit; later digits of the integral part only raise the exponent. -/
structure Scaled where
  significand : Nat
  exponent : Int
  isFull : Bool

def digitValue (c : Char) : Nat := c.toNat - '0'.toNat

namespace Scaled

def zero : Scaled := ⟨0, 0, false⟩

def fits (s : Scaled) (digit : Nat) : Bool := 10 * s.significand + digit < UInt64.size

def integralDigit (s : Scaled) (digit : Nat) : Scaled :=
  if s.isFull || !s.fits digit then
    { s with exponent := s.exponent + 1, isFull := true }
  else
    { s with significand := 10 * s.significand + digit }

/-- A digit after the point. Once one does not fit, the digits after it are dropped. -/
def fractionalDigit (s : Scaled) (digit : Nat) : Scaled :=
  if s.isFull || !s.fits digit then
    { s with isFull := true }
  else
    { s with significand := 10 * s.significand + digit, exponent := s.exponent - 1 }

/-- Whether the number is larger than every double. The significand and the power of ten are each
rounded before they are multiplied. -/
def exceedsDoubles (s : Scaled) : Bool :=
  s.significand ≠ 0 &&
    (308 < s.exponent ||
      (0 ≤ s.exponent &&
        (Float.ofNat s.significand * Float.ofScientific 1 false s.exponent.toNat).isInf))

end Scaled

/-- Consumes decimal digits. -/
def digits : Reader (List Nat) := do
  let cs ← get
  set (cs.dropWhile Char.isDigit)
  pure ((cs.takeWhile Char.isDigit).map digitValue)

/-- Consumes at least one digit. -/
def someDigits : Reader (List Nat) := do
  match ← digits with
  | [] => throw (if (← get).isEmpty then .cutOff else .malformed)
  | ds => pure ds

/-- Consumes the digits before the point, of which only a single one may be a leading zero. -/
def integralDigits : Reader (List Nat) := do
  match ← someDigits with
  | 0 :: _ :: _ => throw .malformed
  | ds => pure ds

/-- Consumes the digits after a point, if there is one. -/
def fraction? : Reader (Option (List Nat)) := do
  match ← get with
  | '.' :: rest => do
    set rest
    some <$> someDigits
  | _ => pure none

/-- Consumes the exponent, if there is one. -/
def exponent? : Reader (Option Int) := do
  match ← get with
  | c :: rest =>
    if c = 'e' || c = 'E' then do
      let (isNegative, rest) := match rest with
        | '+' :: r => (false, r)
        | '-' :: r => (true, r)
        | r => (false, r)
      set rest
      let n : Nat := (← someDigits).foldl (fun n d => 10 * n + d) 0
      pure (some (if isNegative then -n else n))
    else
      pure none
  | [] => pure none

/-- Consumes a number after its sign. -/
def unsigned (isNegative : Bool) : Reader Numeral := do
  let whole := (← integralDigits).foldl Scaled.integralDigit .zero
  let fraction ← fraction?
  let exponent ← exponent?
  if fraction.isNone && exponent.isNone && !whole.isFull then
    pure (if isNegative then .other else .natural whole.significand)
  else do
    let withFraction := (fraction.getD []).foldl Scaled.fractionalDigit
      { whole with isFull := false }
    let scaled := { withFraction with exponent := withFraction.exponent + exponent.getD 0 }
    if scaled.exceedsDoubles then throw .malformed else pure .other

/-- Consumes a number. -/
def read : Reader Numeral := do
  match ← get with
  | '-' :: rest => do
    set rest
    unsigned true
  | _ => unsigned false

end Numeral
end GreenTree.Json
