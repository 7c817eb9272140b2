import LetScript.Style.Naming
import LetScript.Style.Spacing
import LetScript.Style.Layout

/-! Each rule as a check and, where it can be mended by moving trivia, a fix. Here are also the
rules on calls whose argument is more than a name or a literal. -/
namespace LetScript

namespace Argument

/-- Whether the call at an index has a single name or literal between its
parentheses. Where there are no matching parentheses nothing is asked for. -/
def isSimple (ts : List Token) (i : Nat) : Bool :=
  match (nextSignificant? ts i).filter (kindIs ts · .openParen) with
  | none => true
  | some opening =>
    match closingParen? ts opening with
    | none => true
    | some closing =>
      match significant (Gap.inside ⟨opening, closing⟩ ts) with
      | [only] => only.kind = .identifier || only.kind.isLiteral
      | _ => false

def check (f : Builtin) (ts : List Token) : List Remark :=
  ts.zipIdx.filterMap fun (t, i) =>
    if t.isBuiltin f && !isSimple ts i then some ⟨.complexArgument f, t.position⟩ else none

end Argument

namespace StyleRule

def remarks : StyleRule → List Token → List Remark
  | camelCase => Naming.camelCase
  | snakeCase => Naming.snakeCase
  | pascalCase => Naming.pascalCase
  | spaceBeforeColon => Padding.check ⟨true, false⟩ Padding.colonBefore
  | spaceAfterColon => Padding.check ⟨false, true⟩ Padding.colonAfter
  | oneSpaceAfterToken => Blank.checkSpaces
  | spaceAroundEqual => Padding.check ⟨true, true⟩ Padding.equalSign
  | spaceAroundOperator => Padding.check ⟨true, true⟩ Padding.binaryOperator
  | newlineAfterSemicolon => Layout.checkStatements
  | newlineBeforePrintln n => Layout.checkPrintln n
  | maxOneBlankLine => Blank.checkLines
  | ifBraceSameLine => Layout.checkBraces
  | printlnSimpleArgument => Argument.check .println
  | readInputSimpleArgument => Argument.check .readInput

def check (r : StyleRule) (ts : List Token) : List Finding :=
  (r.remarks ts).map fun m => ⟨r, m.violation, m.position⟩

/-- The list of tokens mended according to a rule. Rules on names and on
arguments change nothing. -/
def fix : StyleRule → List Token → List Token
  | camelCase => id
  | snakeCase => id
  | pascalCase => id
  | spaceBeforeColon => Padding.fix ⟨true, false⟩ Padding.colonBefore
  | spaceAfterColon => Padding.fix ⟨false, true⟩ Padding.colonAfter
  | oneSpaceAfterToken => Blank.fixSpaces
  | spaceAroundEqual => Padding.fix ⟨true, true⟩ Padding.equalSign
  | spaceAroundOperator => Padding.fix ⟨true, true⟩ Padding.binaryOperator
  | newlineAfterSemicolon => Layout.fixStatements
  | newlineBeforePrintln n => Layout.fixPrintln n
  | maxOneBlankLine => Blank.fixLines
  | ifBraceSameLine => Layout.fixBraces
  | printlnSimpleArgument => id
  | readInputSimpleArgument => id

end StyleRule

end LetScript
