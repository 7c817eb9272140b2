import LetScript.Token

/-! Why a list of tokens is not a program, and what to say about it. -/
namespace LetScript

inductive SyntaxFault where
  | unexpectedToken (expected found : Kind)
  | tooFewTokens (statement : String) (expected found : Nat)
  | missingOperator (expected : Operator)
  | unbalancedParentheses (opened closed : Nat)
  | unbalancedBraces
  | emptyExpression
  | invalidExpression (found : Kind)
  | uninitializedConstant (name : String)
  | missingTerminator
  | unrecognizedStatement (found : Kind)
deriving DecidableEq, Repr

namespace SyntaxFault

def message : SyntaxFault → String
  | unexpectedToken e f => "expected " ++ e.name ++ ", found " ++ f.name
  | tooFewTokens s e f =>
    s ++ " needs at least " ++ toString e ++ " tokens, found " ++ toString f
  | missingOperator o => "expected operator '" ++ String.singleton o.symbol ++ "'"
  | unbalancedParentheses o c =>
    "unbalanced parentheses: " ++ toString o ++ " opened, " ++ toString c ++ " closed"
  | unbalancedBraces => "unbalanced braces"
  | emptyExpression => "expected an expression"
  | invalidExpression f => "unexpected " ++ f.name ++ " in expression"
  | uninitializedConstant n => "constant `" ++ n ++ "` must be initialized"
  | missingTerminator => "missing ';' at end of statement"
  | unrecognizedStatement f => "no statement starts with " ++ f.name

def kindHint? (expected found : Kind) : Option String :=
  match expected, found with
  | .colon, .typeName => some "add ':' between the name and its type"
  | .colon, .operator => some "use ':' for types, '=' for values"
  | .colon, _ => some "syntax: let name: Type = value"
  | .identifier, .number => some "names can't start with a number"
  | .identifier, _ => some "names start with a letter or '_'"
  | .typeName, _ => some "try a type like Number or String"
  | .builtin, .identifier => some "only built-in functions such as println can be called"
  | .openParen, _ => some "function calls need parentheses"
  | .closeParen, _ => some "add ')' to close the parenthesis"
  | .openBrace, _ => some "blocks start with '\x7b'"
  | .closeBrace, _ => some "every '\x7b' needs a matching '\x7d'"
  | .semicolon, _ => some "end statements with ';'"
  | _, _ => none

def hint? : SyntaxFault → Option String
  | unexpectedToken e f => kindHint? e f
  | tooFewTokens _ _ _ => some "statement is incomplete"
  | missingOperator .equal => some "use '=' to assign a value"
  | missingOperator _ => none
  | unbalancedParentheses _ _ => some "every '(' needs a matching ')'"
  | unbalancedBraces => some "every '\x7b' needs a matching '\x7d'"
  | emptyExpression => some "try a value, variable, or function call"
  | invalidExpression .semicolon => some "statement is incomplete"
  | invalidExpression _ => none
  | uninitializedConstant _ => some "syntax: const name: Type = value"
  | missingTerminator => some "end statements with ';'"
  | unrecognizedStatement _ => some "start with 'let', a name, or a function call"

end SyntaxFault

structure SyntaxError where
  fault : SyntaxFault
  position : Position
  hint : Option String
deriving DecidableEq, Repr

namespace SyntaxError

def of (f : SyntaxFault) (p : Position) : SyntaxError := ⟨f, p, f.hint?⟩

def unexpected (expected found : Kind) (p : Position) : SyntaxError :=
  of (.unexpectedToken expected found) p

def message (e : SyntaxError) : String := e.fault.message ++ " at " ++ e.position.display

end SyntaxError
end LetScript
