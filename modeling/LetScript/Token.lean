import LetScript.Position
import LetScript.Vocabulary
import LetScript.Number

/-! Tokens: what a source text is cut into. A token has a kind, a value and a place. Blanks and
line breaks are tokens too, called trivia. A list of tokens can be spelled back as text, and
placed where that text puts it. -/
namespace LetScript

inductive Kind where
  | declarator
  | ifWord
  | elseWord
  | identifier
  | typeName
  | builtin
  | number
  | string
  | boolean
  | operator
  | colon
  | openParen
  | closeParen
  | openBrace
  | closeBrace
  | semicolon
  | whitespace
  | newline
deriving DecidableEq, Repr

namespace Kind

def all : List Kind :=
  [declarator, ifWord, elseWord, identifier, typeName, builtin, number, string, boolean,
   operator, colon, openParen, closeParen, openBrace, closeBrace, semicolon, whitespace, newline]

def name : Kind → String
  | declarator => "variable_declarator"
  | ifWord => "if"
  | elseWord => "else"
  | identifier => "identifier"
  | typeName => "type"
  | builtin => "function"
  | number => "number"
  | string => "string"
  | boolean => "boolean"
  | operator => "operator"
  | colon => "type_declarator"
  | openParen => "open_parenthesis"
  | closeParen => "close_parenthesis"
  | openBrace => "open_brace"
  | closeBrace => "close_brace"
  | semicolon => "end_sentence"
  | whitespace => "whitespace"
  | newline => "newline"

def ofName? (s : String) : Option Kind := all.find? fun k => k.name = s

def isTrivia (k : Kind) : Bool := k == whitespace || k == newline

def isLiteral (k : Kind) : Bool := k == number || k == string || k == boolean

end Kind

/-- What a token stands for. A raw value is just its text. -/
inductive Value where
  | operator (o : Operator)
  | builtin (f : Builtin)
  | typeName (t : TypeName)
  | boolean (b : Bool)
  | string (s : String)
  | number (x : Binary64)
  | raw (s : String)
deriving DecidableEq, Repr

structure Token where
  kind : Kind
  value : Value
  position : Position
deriving DecidableEq, Repr

namespace Token

def raw (k : Kind) (s : String) (p : Position) : Token := ⟨k, .raw s, p⟩

def identifier (name : String) (p : Position) : Token := raw .identifier name p

def operator (o : Operator) (p : Position) : Token := ⟨.operator, .operator o, p⟩

def builtin (f : Builtin) (p : Position) : Token := ⟨.builtin, .builtin f, p⟩

def typeName (t : TypeName) (p : Position) : Token := ⟨.typeName, .typeName t, p⟩

def number (x : Binary64) (p : Position) : Token := ⟨.number, .number x, p⟩

def string (s : String) (p : Position) : Token := ⟨.string, .string s, p⟩

def boolean (b : Bool) (p : Position) : Token := ⟨.boolean, .boolean b, p⟩

def space (p : Position) : Token := raw .whitespace " " p

def lineBreak (p : Position) : Token := raw .newline "\n" p

def isTrivia (t : Token) : Bool := t.kind.isTrivia

/-- Whether the value, whatever the kind, is this operator. -/
def isOperator (t : Token) (o : Operator) : Bool := t.value = .operator o

def isBuiltin (t : Token) (f : Builtin) : Bool := t.value = .builtin f

def rawText? (t : Token) : Option String :=
  match t.value with
  | .raw s => some s
  | _ => none

/-- The raw text, or nothing if the value is of another sort. -/
def nameText (t : Token) : String := t.rawText?.getD ""

/-- The value is of the sort that belongs to the kind, as in every token that
is read from a text. -/
def Consistent (t : Token) : Prop :=
  match t.kind, t.value with
  | .operator, .operator _ => True
  | .builtin, .builtin _ => True
  | .typeName, .typeName _ => True
  | .boolean, .boolean _ => True
  | .string, .string _ => True
  | .number, .number _ => True
  | .operator, _ => False
  | .builtin, _ => False
  | .typeName, _ => False
  | .boolean, _ => False
  | .string, _ => False
  | .number, _ => False
  | _, .raw _ => True
  | _, _ => False

instance (t : Token) : Decidable t.Consistent := by
  unfold Consistent
  split <;> infer_instance

end Token

def significant (ts : List Token) : List Token := ts.filter fun t => !t.isTrivia

/-- The place of the last token, where errors about a missing one are put. -/
def endPosition (ts : List Token) : Position :=
  match ts.getLast? with
  | some t => t.position
  | none => .start

/-- A text between quotes: double ones, unless it holds a double quote. -/
def quoted (cs : List Char) : List Char :=
  let quote := if cs.contains '\x22' then '\x27' else '\x22'
  quote :: cs ++ [quote]

def Value.spelling : Value → List Char
  | .operator o => [o.symbol]
  | .builtin f => f.name.toList
  | .typeName t => t.name.toList
  | .boolean b => if b then "true".toList else "false".toList
  | .string s => quoted s.toList
  | .number x => x.text
  | .raw s => s.toList

def Token.spelling (t : Token) : List Char := t.value.spelling

def spell (ts : List Token) : List Char := ts.flatMap Token.spelling

@[simp] theorem spell_nil : spell [] = [] := rfl

@[simp] theorem spell_cons (t : Token) (ts : List Token) :
    spell (t :: ts) = t.spelling ++ spell ts := rfl

/-- Give each token the place where its spelling begins if the spellings stand
one after another from the place `p` on. -/
def placeFrom (p : Position) : List Token → List Token
  | [] => []
  | t :: ts => { t with position := p } :: placeFrom (p.advance t.spelling) ts

def place (ts : List Token) : List Token := placeFrom .start ts

end LetScript
