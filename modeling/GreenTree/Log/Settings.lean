import GreenTree.Text.Blank

/-!
# Log settings

What is logged, and how, as the environment asks for it. One variable belongs to this library and
may be a bare level, which then holds for the library alone; another is general and taken as it is.
-/

namespace GreenTree.Log

inductive Format where
  | text
  | tree
  | json
  deriving DecidableEq

/-- The format of a name, whatever its case; text where there is no such format. -/
def Format.ofName (name : String) : Format :=
  match (Text.trim name).toLower with
  | "tree" => .tree
  | "json" => .json
  | _ => .text

inductive Level where
  | off
  | error
  | warn
  | info
  | debug
  | trace
  deriving DecidableEq

namespace Level

def name : Level → String
  | off => "off"
  | error => "error"
  | warn => "warn"
  | info => "info"
  | debug => "debug"
  | trace => "trace"

/-- From the one that lets nothing through to the one that lets everything through. -/
def all : List Level := [off, error, warn, info, debug, trace]

/-- The number of a text of decimal digits, with at most one plus sign before them. -/
def number? (s : String) : Option Nat :=
  let digits := match s.toList with
    | '+' :: rest => rest
    | cs => cs
  if digits.isEmpty || !digits.all Char.isDigit then
    none
  else
    some (digits.foldl (fun n c => 10 * n + (c.toNat - '0'.toNat)) 0)

/-- The level that a text names by its number or by its name; no text at all means errors only. -/
def parse? (s : String) : Option Level :=
  match number? s with
  | some n => all[n]?
  | none => if s.isEmpty then some error else all.find? fun l => l.name == s.toLower

end Level

/-- The targets that belong to the library. -/
def targets : List String := ["sylva_common", "sylva_syntax", "sylva_collections", "sylva_ide"]

/-- The directives that a text stands for: a bare level is spelled out for each target, and what is
not a level is left alone. -/
def directivesFor (s : String) : String :=
  let trimmed := Text.trim s
  match Level.parse? trimmed with
  | none => trimmed
  | some .off => "off"
  | some level => ",".intercalate ("warn" :: targets.map fun t => s!"{t}={level.name}")

structure Settings where
  format : Format
  directives : String

/-- The settings of three variables: the library's own, the general one and the format. There are
none unless one of the first two is set, and the library's own comes before the general one. -/
def Settings.ofVariables (own general format : Option String) : Option Settings :=
  let wanted := match own, general with
    | some s, _ => some (directivesFor s)
    | none, some s => some s
    | none, none => none
  wanted.map fun d => ⟨(format.map Format.ofName).getD .text, d⟩

example : directivesFor " Off " = "off" := by decide +kernel

example : Level.parse? "+03" = some .info := by decide +kernel

end GreenTree.Log
