import LetScript.Token

/-! Style rules, what can be found against them, and how it is worded. -/
namespace LetScript

/-- The rules of style. The one on printing is given the number of blank lines that it asks for,
which is meant to have a successor below 2 ^ 64. -/
inductive StyleRule where
  | camelCase
  | snakeCase
  | pascalCase
  | spaceBeforeColon
  | spaceAfterColon
  | oneSpaceAfterToken
  | spaceAroundEqual
  | spaceAroundOperator
  | newlineAfterSemicolon
  | newlineBeforePrintln (blankLines : Nat)
  | maxOneBlankLine
  | ifBraceSameLine
  | printlnSimpleArgument
  | readInputSimpleArgument
deriving DecidableEq, Repr

namespace StyleRule

/-- All rules, in the order in which they are applied. -/
def all (blankLines : Nat) : List StyleRule :=
  [camelCase, snakeCase, pascalCase,
   spaceBeforeColon, spaceAfterColon, oneSpaceAfterToken, spaceAroundEqual, spaceAroundOperator,
   newlineAfterSemicolon, newlineBeforePrintln blankLines, maxOneBlankLine, ifBraceSameLine,
   printlnSimpleArgument, readInputSimpleArgument]

def name : StyleRule → String
  | camelCase => "camel-case"
  | snakeCase => "snake-case"
  | pascalCase => "pascal-case"
  | spaceBeforeColon => "space-before-colon"
  | spaceAfterColon => "space-after-colon"
  | oneSpaceAfterToken => "one-space-after-token"
  | spaceAroundEqual => "space-around-equal"
  | spaceAroundOperator => "space-around-operator"
  | newlineAfterSemicolon => "newline-after-semicolon"
  | newlineBeforePrintln _ => "newline-before-println"
  | maxOneBlankLine => "max-one-blank-line"
  | ifBraceSameLine => "if-brace-same-line"
  | printlnSimpleArgument => "println-simple-argument"
  | readInputSimpleArgument => "read-input-simple-argument"

def description : StyleRule → String
  | camelCase => "identifiers must be camelCase"
  | snakeCase => "identifiers must be snake_case"
  | pascalCase => "identifiers must be PascalCase"
  | spaceBeforeColon => ""
  | spaceAfterColon => ""
  | oneSpaceAfterToken => "at most one space between two tokens on a line"
  | spaceAroundEqual => ""
  | spaceAroundOperator => "binary operators must have a space on each side"
  | newlineAfterSemicolon => "a statement must be followed by a line break"
  | newlineBeforePrintln _ => "println must follow a fixed number of blank lines"
  | maxOneBlankLine => ""
  | ifBraceSameLine => "if/else braces open on the line of their keyword"
  | printlnSimpleArgument => "println takes an identifier or a literal"
  | readInputSimpleArgument => "readInput takes an identifier or a literal"

/-- The rules named in a list, in the order in which they are applied. Names
of no rule are passed over, and so are repetitions. -/
def active (names : List String) (blankLines : Nat) : List StyleRule :=
  (all blankLines).filter fun r => names.contains r.name

def ofName? (s : String) (blankLines : Nat) : Option StyleRule :=
  (all blankLines).find? fun r => r.name = s

end StyleRule

inductive Violation where
  | notCamelCase (name suggestion : String)
  | notSnakeCase (name suggestion : String)
  | notPascalCase (name suggestion : String)
  | missingSpaceBeforeColon
  | missingSpaceAfterColon
  | repeatedSpace
  | missingSpaceAroundEqual
  | missingSpaceAroundOperator (o : Operator)
  | missingNewlineAfterStatement
  | printlnSpacing (expected : Nat)
  | tooManyBlankLines
  | braceOnNewLine
  | complexArgument (f : Builtin)
deriving DecidableEq, Repr

def Violation.message : Violation → String
  | notCamelCase n s => "`" ++ n ++ "` should be camelCase (`" ++ s ++ "`)"
  | notSnakeCase n s => "`" ++ n ++ "` should be snake_case (`" ++ s ++ "`)"
  | notPascalCase n s => "`" ++ n ++ "` should be PascalCase (`" ++ s ++ "`)"
  | missingSpaceBeforeColon => "missing space before ':'"
  | missingSpaceAfterColon => "missing space after ':'"
  | repeatedSpace => "more than one space between tokens"
  | missingSpaceAroundEqual => "'=' should have a space on each side"
  | missingSpaceAroundOperator o =>
    "'" ++ String.singleton o.symbol ++ "' should have a space on each side"
  | missingNewlineAfterStatement => "statement should be followed by a line break"
  | printlnSpacing n => "println should start a line after " ++ toString n ++ " blank line(s)"
  | tooManyBlankLines => "more than one consecutive blank line"
  | braceOnNewLine => "'\x7b' should be on the same line as `if`/`else`"
  | complexArgument f =>
    "`" ++ f.name ++ "` should only be called with an identifier or a literal"

structure Remark where
  violation : Violation
  position : Position
deriving DecidableEq, Repr

structure Finding where
  rule : StyleRule
  violation : Violation
  position : Position
deriving DecidableEq, Repr

def Finding.message (f : Finding) : String :=
  f.violation.message ++ " at " ++ f.position.display ++ " [" ++ f.rule.name ++ "]"

end LetScript
