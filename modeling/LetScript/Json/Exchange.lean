import LetScript.Position
import LetScript.Vocabulary
import LetScript.Json.Reader

/-! Records in JSON, which are written as an object with named fields or as an array with the
fields in order, and the positions, types and declaring words that are exchanged as JSON texts. -/
namespace LetScript

namespace Json

/-- The value of a field, which may be missing but must not be repeated. -/
def field? {τ : Type} (key : String) (fields : List (Option String × τ)) : Option (Option τ) :=
  match fields.filter fun f => f.1 = some key with
  | [] => some none
  | [f] => some (some f.2)
  | _ => none

/-- The values of a record with these fields, in this order. Further fields of
an object are passed over, and further items of an array are refused. -/
def record? (keys : List String) :
    Json (Option String) → Option (List (Option (Json (Option String))))
  | object fields =>
    if fields.all fun f => f.1.isSome then keys.mapM fun k => field? k fields else none
  | array items =>
    if items.length ≤ keys.length then
      some (items.map some ++ List.replicate (keys.length - items.length) none)
    else none
  | _ => none

/-- A natural number below 2 ^ 64, written without sign, fraction and exponent. -/
def toNatural? : Json (Option String) → Option Nat
  | number literal =>
    let ds := literal.toList
    let n := Nat.ofDigitChars 10 ds 0
    if ds.all Char.isDigit && n < UInt64.size then some n else none
  | _ => none

def toText? : Json (Option String) → Option String
  | text s => s
  | _ => none

def toTexts? : Json (Option String) → Option (List String)
  | array items => items.mapM toText?
  | _ => none

/-- One of several choices, written as its name or as an object that has the
name as its only field, with no value. -/
def choice? {α : Type} (ofName? : String → Option α) : Json (Option String) → Option α
  | text (some s) => ofName? s
  | object [(some s, null)] => ofName? s
  | _ => none

end Json

def Position.ofJsonText? (s : String) : Option Position := do
  match ← Json.record? ["row", "column"] (← Json.ofText? s) with
  | [some row, some column] => return ⟨← row.toNatural?, ← column.toNatural?⟩
  | _ => none

def Position.toJsonText (p : Position) : String :=
  Json.compact (.object [("row", .natural p.row), ("column", .natural p.column)])

def TypeName.ofJsonText? (s : String) : Option TypeName := do
  Json.choice? ofName? (← Json.ofText? s)

def TypeName.toJsonText (t : TypeName) : String := Json.compact (.text t.name)

def Declarator.ofJsonText? (s : String) : Option Declarator := do
  Json.choice? ofName? (← Json.ofText? s)

def Declarator.toJsonText (d : Declarator) : String := Json.compact (.text d.name)

end LetScript
