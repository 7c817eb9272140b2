import LetScript.Json.Exchange
import LetScript.Style.Rule

/-! Configurations: which rules are to run, and how many blank lines printing
wants before it. -/
namespace LetScript

inductive Purpose where
  | lint
  | format
deriving DecidableEq, Repr

def Purpose.field : Purpose → String
  | lint => "rules"
  | format => "fix"

inductive ConfigError where
  | malformed (reason : String)
  | tooManyBlankLines (n : Nat)
deriving DecidableEq, Repr

def ConfigError.message : ConfigError → String
  | malformed reason => "malformed configuration: " ++ reason
  | tooManyBlankLines n => "println_blank_lines must be at most 1, got " ++ toString n

structure Config where
  names : List String
  blankLines : Nat
deriving DecidableEq, Repr

namespace Config

def defaultBlankLines : Nat := 1

def maxBlankLines : Nat := 1

def default : Config := ⟨[], defaultBlankLines⟩

/-- The configuration that a JSON value stands for, its numbers unchecked. -/
def ofJson? (p : Purpose) (v : Json (Option String)) : Option Config := do
  match ← v.record? [p.field, "println_blank_lines"] with
  | [some names, none] => return ⟨← names.toTexts?, defaultBlankLines⟩
  | [some names, some n] => return ⟨← names.toTexts?, ← n.toNatural?⟩
  | _ => none

def ofText (p : Purpose) (s : String) : Except ConfigError Config :=
  match Json.ofText? s with
  | none => .error (.malformed "not a JSON text")
  | some v =>
    match ofJson? p v with
    | none => .error (.malformed "not a list of rule names with a count of blank lines")
    | some c =>
      if c.blankLines ≤ maxBlankLines then .ok c else .error (.tooManyBlankLines c.blankLines)

def rules (c : Config) : List StyleRule := StyleRule.active c.names c.blankLines

end Config
end LetScript
