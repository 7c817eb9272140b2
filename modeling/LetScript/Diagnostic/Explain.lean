import LetScript.Config
import LetScript.Diagnostic
import LetScript.Format
import LetScript.Program.Error

/-! The diagnostics of errors and findings of every sort. -/
namespace LetScript

def Diagnostic.withHelp? (d : Diagnostic) : Option String → Diagnostic
  | some h => d.withHelp h
  | none => d

def LexError.diagnostic : LexError → Diagnostic
  | unsupportedVersion id =>
    ((Diagnostic.error ("unsupported version `" ++ id ++ "`")).withCode "E0300").withHelp
      "supported versions are 1.0 and 1.1"
  | unrecognizedCharacter c p =>
    ((Diagnostic.error ("unrecognized character '" ++ String.singleton c ++ "'")).withCode
      "E0001").withLabel p "not part of any token"
  | unmatchedQuote q p =>
    (((Diagnostic.error "unmatched quotation mark").withCode "E0002").withLabel p
      "string starts here").withHelp
      ("close the string with " ++ String.singleton q ++ " on the same line")

def SyntaxFault.code : SyntaxFault → String
  | unexpectedToken _ _ => "E0100"
  | tooFewTokens _ _ _ => "E0101"
  | missingOperator _ => "E0102"
  | unbalancedParentheses _ _ => "E0103"
  | unbalancedBraces => "E0104"
  | emptyExpression => "E0105"
  | invalidExpression _ => "E0106"
  | uninitializedConstant _ => "E0107"
  | missingTerminator => "E0108"
  | unrecognizedStatement _ => "E0109"

def SyntaxError.diagnostic (e : SyntaxError) : Diagnostic :=
  (((Diagnostic.error e.fault.message).withCode e.fault.code).withLabel e.position
    "here").withHelp? e.hint

def Violation.code : Violation → String
  | notCamelCase _ _ => "E0200"
  | notSnakeCase _ _ => "E0200"
  | notPascalCase _ _ => "E0200"
  | missingSpaceBeforeColon => "E0201"
  | missingSpaceAfterColon => "E0201"
  | repeatedSpace => "E0201"
  | missingSpaceAroundEqual => "E0201"
  | missingSpaceAroundOperator _ => "E0201"
  | missingNewlineAfterStatement => "E0202"
  | printlnSpacing _ => "E0202"
  | tooManyBlankLines => "E0202"
  | braceOnNewLine => "E0203"
  | complexArgument _ => "E0204"

/-- How to mend what a fix cannot mend. -/
def Violation.help? : Violation → Option String
  | notCamelCase _ s => some ("rename to `" ++ s ++ "`")
  | notSnakeCase _ s => some ("rename to `" ++ s ++ "`")
  | notPascalCase _ s => some ("rename to `" ++ s ++ "`")
  | complexArgument f =>
    some ("store the value in a variable and pass that to `" ++ f.name ++ "`")
  | _ => none

def Finding.diagnostic (f : Finding) : Diagnostic :=
  ((((Diagnostic.warning f.violation.message).withCode f.violation.code).withLabel f.position
    f.rule.name).withNote ("reported by rule `" ++ f.rule.name ++ "`")).withHelp?
    f.violation.help?

/-- The finding that makes linting stop is an error. -/
def Finding.fatalDiagnostic (f : Finding) : Diagnostic :=
  { f.diagnostic with severity := .error }

def SourceFault.diagnostic : SourceFault → Diagnostic
  | lexical e => e.diagnostic
  | style f => f.fatalDiagnostic

def ConfigError.diagnostic : ConfigError → Diagnostic
  | malformed reason =>
    (((Diagnostic.error "malformed configuration").withCode "E0301").withNote reason).withHelp
      ("expected \x7b\"rules\": [...]\x7d for linting or " ++
        "\x7b\"fix\": [...]\x7d for formatting")
  | tooManyBlankLines n =>
    (Diagnostic.error (ConfigError.tooManyBlankLines n).message).withCode "E0302"

end LetScript
