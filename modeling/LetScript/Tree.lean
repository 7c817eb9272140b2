import LetScript.Token

/-! Syntax trees of programs. A binary operation stands where its left operand
stands, so it has no place of its own. -/
namespace LetScript

inductive Literal where
  | number (x : Binary64)
  | string (s : String)
  | boolean (b : Bool)
deriving DecidableEq, Repr

def Literal.type : Literal → TypeName
  | number _ => .number
  | string _ => .string
  | boolean _ => .boolean

structure Name where
  text : String
  position : Position
deriving DecidableEq, Repr

structure Variable where
  name : String
  type : TypeName
  position : Position
deriving DecidableEq, Repr

inductive Expr where
  | identifier (x : Name)
  | typed (x : Variable)
  | literal (l : Literal) (p : Position)
  | binary (o : Operator) (left right : Expr)
  | signed (o : Operator) (inner : Expr) (p : Position)
  | call (f : Builtin) (argument : Expr) (p : Position)
deriving DecidableEq, Repr

namespace Expr

def position : Expr → Position
  | identifier x => x.position
  | typed x => x.position
  | literal _ p => p
  | binary _ left _ => left.position
  | signed _ _ p => p
  | call _ _ p => p

/-- Names and literals have no parts. -/
def isAtom : Expr → Bool
  | identifier _ => true
  | typed _ => true
  | literal _ _ => true
  | _ => false

end Expr

inductive Statement where
  | declare (d : Declarator) (x : Variable) (value : Option Expr) (p : Position)
  | assign (target : Name) (value : Expr)
  | call (f : Builtin) (argument : Expr) (p : Position)
  | branch (condition : Expr) (thenPart : List Statement) (elsePart : Option (List Statement))
      (p : Position)
deriving Repr

def Statement.position : Statement → Position
  | declare _ _ _ p => p
  | assign target _ => target.position
  | call _ _ p => p
  | branch _ _ _ p => p

end LetScript
