/-! The fixed words and signs of the language: operators, built-in functions,
types, the two declaring words and the keywords. -/
namespace LetScript

inductive Operator where
  | sum
  | subtract
  | multiply
  | divide
  | equal
deriving DecidableEq, Repr

namespace Operator

def all : List Operator := [sum, subtract, multiply, divide, equal]

def symbol : Operator → Char
  | sum => '+'
  | subtract => '-'
  | multiply => '*'
  | divide => '/'
  | equal => '='

/-- Every operator but the assignment sign combines two values. -/
def isBinary (o : Operator) : Bool := o != equal

def ofSymbol? (s : String) : Option Operator :=
  all.find? fun o => s.toList = [o.symbol]

end Operator

inductive Builtin where
  | println
  | readInput
  | readEnv
deriving DecidableEq, Repr

namespace Builtin

def all : List Builtin := [println, readInput, readEnv]

def name : Builtin → String
  | println => "println"
  | readInput => "readInput"
  | readEnv => "readEnv"

/-- Whether a call yields a value, so that it can stand in an expression. -/
def yieldsValue (f : Builtin) : Bool := f != println

def ofName? (s : String) : Option Builtin := all.find? fun f => f.name = s

end Builtin

inductive TypeName where
  | number
  | string
  | boolean
  | any
deriving DecidableEq, Repr

namespace TypeName

def all : List TypeName := [number, string, boolean, any]

def name : TypeName → String
  | number => "Number"
  | string => "String"
  | boolean => "Boolean"
  | any => "Any"

/-- The words that denote a type in a program. The type `any` has none. -/
def spellings : TypeName → List String
  | number => ["Number", "number"]
  | string => ["String", "string"]
  | boolean => ["Boolean", "boolean"]
  | any => []

def ofName? (s : String) : Option TypeName := all.find? fun t => t.name = s

end TypeName

inductive Declarator where
  | let_
  | const_
deriving DecidableEq, Repr

namespace Declarator

def all : List Declarator := [let_, const_]

def keyword : Declarator → String
  | let_ => "let"
  | const_ => "const"

def name : Declarator → String
  | let_ => "Let"
  | const_ => "Const"

def ofKeyword? (s : String) : Option Declarator := all.find? fun d => d.keyword = s

def ofName? (s : String) : Option Declarator := all.find? fun d => d.name = s

end Declarator

inductive Keyword where
  | let_
  | const_
  | if_
  | else_
deriving DecidableEq, Repr

def Keyword.word : Keyword → String
  | let_ => "let"
  | const_ => "const"
  | if_ => "if"
  | else_ => "else"

end LetScript
