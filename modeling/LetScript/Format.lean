import LetScript.Config
import LetScript.Json.Basic
import LetScript.Lexical.Tokenize
import LetScript.Style.Check

/-! Linting and formatting. Linting stops at the first finding, and a report lists all of them,
rule by rule. Formatting applies the fixes of the chosen rules one after another, and then gives
all tokens new places. -/
namespace LetScript

/-- The first finding of the first rule that has any. -/
def firstFinding? (rs : List StyleRule) (ts : List Token) : Option Finding :=
  rs.findSome? fun r => (r.check ts).head?

def findings (rs : List StyleRule) (ts : List Token) : List Finding :=
  rs.flatMap fun r => r.check ts

def Finding.toJson (f : Finding) : Json String :=
  .object
    [("rule", .text f.rule.name),
     ("message", .text f.violation.message),
     ("location", .object
       [("line", .natural f.position.row), ("column", .natural f.position.column)])]

def lintReport (rs : List StyleRule) (ts : List Token) : Json String :=
  let fs := findings rs ts
  .object
    [("version", .natural 1),
     ("success", .bool fs.isEmpty),
     ("rules", .array (rs.map fun r => .text r.name)),
     ("diagnostics", .array (fs.map Finding.toJson)),
     ("count", .natural fs.length)]

inductive SourceFault where
  | lexical (e : LexError)
  | style (f : Finding)
deriving DecidableEq, Repr

def lintText (source version : String) (c : Config) : Except SourceFault Unit :=
  match tokenize source version with
  | .error e => .error (.lexical e)
  | .ok ts =>
    match firstFinding? c.rules ts with
    | some f => .error (.style f)
    | none => .ok ()

def reportText (source version : String) (c : Config) : Except LexError String := do
  return (lintReport c.rules (← tokenize source version)).pretty

def format (rs : List StyleRule) (ts : List Token) : List Token :=
  place (rs.foldl (fun ts r => r.fix ts) ts)

def formatText (source version : String) (c : Config) : Except LexError String := do
  return String.ofList (spell (format c.rules (← tokenize source version)))

end LetScript
