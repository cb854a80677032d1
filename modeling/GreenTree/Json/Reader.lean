/-!
# Reading JSON

A reader consumes characters from the left and stops at the first thing that is wrong. What is
wrong falls into three sorts: the text may not be JSON, it may end too soon, or it may be JSON that
does not describe the wanted value.
-/

namespace GreenTree.Json

/-- Why a text is refused. -/
inductive Refusal where
  | malformed
  | cutOff
  | unfit
  deriving DecidableEq

/-- Consumes characters, and yields a value or a refusal. -/
abbrev Reader := StateT (List Char) (Except Refusal)

/-- Blanks between the parts of a JSON text. -/
def isBlank (c : Char) : Bool := c == ' ' || c == '\n' || c == '\t' || c == '\r'

def skipBlanks (cs : List Char) : List Char := cs.dropWhile isBlank

namespace Reader

/-- The next character that is not blank, which is not consumed. -/
def peek : Reader (Option Char) := do
  modify skipBlanks
  pure (← get).head?

/-- Consumes one character. -/
def advance : Reader Unit := modify List.tail

/-- Consumes one character, blank or not, and finds the text cut off where there is none. -/
def next : Reader Char := do
  match ← get with
  | [] => throw .cutOff
  | c :: rest => do
    set rest
    pure c

/-- Consumes exactly these characters. -/
def literal : List Char → Reader Unit
  | [] => pure ()
  | c :: rest => do
    if (← next) = c then literal rest else throw .malformed

end Reader
end GreenTree.Json
