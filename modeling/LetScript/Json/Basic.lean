/-! JSON values over a type of texts, and how they are written, either without any blanks or over
several lines with two spaces for each level. Numbers are kept as they are written, and fields in
the order in which they stand. Only quotes, backslashes and control characters are escaped. -/
namespace LetScript

inductive Json (τ : Type) where
  | null
  | bool (b : Bool)
  | number (literal : String)
  | text (s : τ)
  | array (items : List (Json τ))
  | object (fields : List (τ × Json τ))
deriving Repr

namespace Json

def natural {τ : Type} (n : Nat) : Json τ := .number (toString n)

def escape (c : Char) : List Char :=
  if c = '\x22' then ['\\', '\x22']
  else if c = '\\' then ['\\', '\\']
  else if c = '\x08' then ['\\', 'b']
  else if c = '\x0c' then ['\\', 'f']
  else if c = '\n' then ['\\', 'n']
  else if c = '\r' then ['\\', 'r']
  else if c = '\t' then ['\\', 't']
  else if c.toNat < 0x20 then
    ['\\', 'u', '0', '0', Nat.digitChar (c.toNat / 16), Nat.digitChar (c.toNat % 16)]
  else [c]

def quote (s : String) : List Char := '\x22' :: s.toList.flatMap escape ++ ['\x22']

mutual

def compactChars : Json String → List Char
  | null => "null".toList
  | bool b => if b then "true".toList else "false".toList
  | number n => n.toList
  | text s => quote s
  | array items => '[' :: [','].intercalate (compactItems items) ++ [']']
  | object fields => '\x7b' :: [','].intercalate (compactFields fields) ++ ['\x7d']

def compactItems : List (Json String) → List (List Char)
  | [] => []
  | v :: vs => compactChars v :: compactItems vs

def compactFields : List (String × Json String) → List (List Char)
  | [] => []
  | (k, v) :: fs => (quote k ++ ':' :: compactChars v) :: compactFields fs

end

def newLine (level : Nat) : List Char := '\n' :: List.replicate (2 * level) ' '

def block (level : Nat) (opening closing : Char) (parts : List (List Char)) : List Char :=
  if parts = [] then [opening, closing]
  else
    opening :: newLine (level + 1) ++ (',' :: newLine (level + 1)).intercalate parts
      ++ newLine level ++ [closing]

mutual

/-- The value over several lines, from a place at some level on. -/
def prettyChars (level : Nat) : Json String → List Char
  | null => "null".toList
  | bool b => if b then "true".toList else "false".toList
  | number n => n.toList
  | text s => quote s
  | array items => block level '[' ']' (prettyItems (level + 1) items)
  | object fields => block level '\x7b' '\x7d' (prettyFields (level + 1) fields)

def prettyItems (level : Nat) : List (Json String) → List (List Char)
  | [] => []
  | v :: vs => prettyChars level v :: prettyItems level vs

def prettyFields (level : Nat) : List (String × Json String) → List (List Char)
  | [] => []
  | (k, v) :: fs => (quote k ++ ':' :: ' ' :: prettyChars level v) :: prettyFields level fs

end

def compact (v : Json String) : String := String.ofList (compactChars v)

def pretty (v : Json String) : String := String.ofList (prettyChars 0 v)

end Json

end LetScript
