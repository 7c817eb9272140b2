import LetScript.Style.Rule

/-! Names in camel, snake and Pascal case. Only the letters, digits and the
underscore of the basic Latin alphabet are looked at. -/
namespace LetScript
namespace Naming

def isCamelCase (cs : List Char) : Bool :=
  (match cs with
    | [] => false
    | c :: _ => c.isLower) && cs.all Char.isAlphanum

def isSnakeCase (cs : List Char) : Bool :=
  (match cs with
    | [] => true
    | c :: _ => c != '_') && cs.all fun c => c.isLower || c.isDigit || c == '_'

def isPascalCase (cs : List Char) : Bool :=
  (match cs with
    | [] => false
    | c :: _ => c.isUpper) && cs.all Char.isAlphanum

/-- Cut the rest of a name into words, with the letters of the word so far in
`current`. A capital letter is compared with the last of these. -/
def wordsFrom (current : List Char) : List Char → List (List Char)
  | [] => if current = [] then [] else [current]
  | c :: cs =>
    if c = '_' then
      if current = [] then wordsFrom [] cs else current :: wordsFrom [] cs
    else if c.isUpper ∧ current.getLast?.any (fun p => !p.isUpper) then
      current :: wordsFrom [c.toLower] cs
    else wordsFrom (current ++ [c.toLower]) cs

/-- The words of a name in small letters. Underscores divide words, and a
capital letter begins a new one. -/
def words (cs : List Char) : List (List Char) := wordsFrom [] cs

def capitalize : List Char → List Char
  | [] => []
  | c :: cs => c.toUpper :: cs

def toCamelCase (cs : List Char) : List Char :=
  match words cs with
  | [] => []
  | w :: ws => w ++ ws.flatMap capitalize

def toSnakeCase (cs : List Char) : List Char := ['_'].intercalate (words cs)

def toPascalCase (cs : List Char) : List Char := (words cs).flatMap capitalize

def check (accepts : List Char → Bool) (violation : String → Violation) (ts : List Token) :
    List Remark :=
  ts.filterMap fun t =>
    match t.kind, t.value with
    | .identifier, .raw s => if accepts s.toList then none else some ⟨violation s, t.position⟩
    | _, _ => none

def camelCase : List Token → List Remark :=
  check isCamelCase fun s => .notCamelCase s (String.ofList (toCamelCase s.toList))

def snakeCase : List Token → List Remark :=
  check isSnakeCase fun s => .notSnakeCase s (String.ofList (toSnakeCase s.toList))

def pascalCase : List Token → List Remark :=
  check isPascalCase fun s => .notPascalCase s (String.ofList (toPascalCase s.toList))

end Naming
end LetScript
