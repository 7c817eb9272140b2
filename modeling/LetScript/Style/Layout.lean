import LetScript.Style.Rule
import LetScript.Style.Gap

/-! Line breaks between statements, before printing, and before the braces of a
conditional. -/
namespace LetScript
namespace Layout

def statementGaps (ts : List Token) : List Gap :=
  ts.zipIdx.filterMap fun (t, i) =>
    if t.kind = .semicolon then
      (nextSignificant? ts i).bind fun next =>
        let g : Gap := ⟨i, next⟩
        if g.breaks ts = 0 then some g else none
    else none

def checkStatements (ts : List Token) : List Remark :=
  (statementGaps ts).map fun g => ⟨.missingNewlineAfterStatement, placeAt ts g.start⟩

/-- New trivia has the place of the token before the gap. -/
def fixStatements (ts : List Token) : List Token :=
  fillGaps (fun g ts => [.lineBreak (placeAt ts g.start)]) (statementGaps ts) ts

/-- How many line breaks must lie between a token of this kind and the printing after it. None is
asked for where no statement can begin. The sum stands for one of machine words that does not
overflow, so `blankLines + 1` is meant to be below 2 ^ 64. -/
def requiredBreaks (blankLines : Nat) : Kind → Option Nat
  | .openBrace => some 1
  | .semicolon | .closeBrace => some (blankLines + 1)
  | _ => none

def requiredAt (blankLines : Nat) (ts : List Token) (i : Nat) : Option Nat :=
  ts[i]?.bind fun t => requiredBreaks blankLines t.kind

def printlnGaps (blankLines : Nat) (ts : List Token) : List Gap :=
  ts.zipIdx.filterMap fun (t, i) =>
    if t.isBuiltin .println then
      (prevSignificant? ts i).bind fun prev =>
        let g : Gap := ⟨prev, i⟩
        (requiredAt blankLines ts prev).bind fun required =>
          if g.breaks ts = required then none else some g
    else none

def checkPrintln (blankLines : Nat) (ts : List Token) : List Remark :=
  (printlnGaps blankLines ts).filterMap fun g =>
    (requiredAt blankLines ts g.start).map fun required =>
      ⟨.printlnSpacing (required - 1), placeAt ts g.stop⟩

def indentation (trivia : List Token) : List Token :=
  if trivia.any fun t => t.kind = .newline then
    (trivia.reverse.takeWhile fun t => t.kind ≠ .newline).reverse
  else []

def printlnTrivia (blankLines : Nat) (g : Gap) (ts : List Token) : List Token :=
  let count := (requiredAt blankLines ts g.start).getD 1
  List.replicate count (.lineBreak (placeAt ts g.start)) ++ indentation (g.inside ts)

def fixPrintln (blankLines : Nat) (ts : List Token) : List Token :=
  fillGaps (printlnTrivia blankLines) (printlnGaps blankLines ts) ts

/-- The gap that a token of a conditional wants free of line breaks: from the
condition to its brace, from a brace to `else`, or from `else` to its brace. -/
def braceGap? (ts : List Token) (t : Token) (i : Nat) : Option Gap :=
  match t.kind with
  | .ifWord => do
    let opening ← (nextSignificant? ts i).filter (kindIs ts · .openParen)
    let closing ← closingParen? ts opening
    let brace ← (nextSignificant? ts closing).filter (kindIs ts · .openBrace)
    return ⟨closing, brace⟩
  | .closeBrace => do
    let next ← (nextSignificant? ts i).filter (kindIs ts · .elseWord)
    return ⟨i, next⟩
  | .elseWord => do
    let next ← (nextSignificant? ts i).filter (kindIs ts · .openBrace)
    return ⟨i, next⟩
  | _ => none

def braceGaps (ts : List Token) : List Gap :=
  ts.zipIdx.filterMap fun (t, i) => (braceGap? ts t i).filter fun g => g.breaks ts ≠ 0

def checkBraces (ts : List Token) : List Remark :=
  (braceGaps ts).map fun g => ⟨.braceOnNewLine, placeAt ts g.stop⟩

def fixBraces (ts : List Token) : List Token :=
  fillGaps (fun g ts => [.space (placeAt ts g.start)]) (braceGaps ts) ts

end Layout
end LetScript
