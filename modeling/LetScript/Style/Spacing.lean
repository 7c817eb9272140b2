import LetScript.Style.Rule

/-! Spaces around signs, and superfluous trivia. A target is a token that wants a space on one
side or on both. Whether a token is a target depends on it and on the kind of the last token
before it that is not trivia. Superfluous are spaces after a space, and blank lines after a blank
line. Such tokens are marked, and mending a list drops them. -/
namespace LetScript

namespace Padding

structure Sides where
  before : Bool
  after : Bool
deriving DecidableEq, Repr

/-- What to say of a token without its spaces, if it wants any. -/
abbrev Target := Option Kind → Token → Option Violation

def colonBefore : Target := fun _ t =>
  if t.kind = .colon then some .missingSpaceBeforeColon else none

def colonAfter : Target := fun _ t =>
  if t.kind = .colon then some .missingSpaceAfterColon else none

def equalSign : Target := fun _ t =>
  if t.isOperator .equal then some .missingSpaceAroundEqual else none

def endsOperand : Kind → Bool
  | .identifier | .number | .string | .boolean | .closeParen => true
  | _ => false

/-- An operator with an operand before it combines two values. Without one it
is a sign. -/
def binaryOperator : Target := fun prior t =>
  match t.value with
  | .operator o =>
    if o.isBinary && prior.any endsOperand then some (.missingSpaceAroundOperator o) else none
  | _ => none

structure Marked where
  token : Token
  violation : Option Violation
deriving DecidableEq, Repr

/-- Mark the targets of a list of tokens, the last significant token before it
having the kind `prior`. -/
def markFrom (target : Target) (prior : Option Kind) : List Token → List Marked
  | [] => []
  | t :: ts =>
    ⟨t, target prior t⟩ :: markFrom target (if t.isTrivia then prior else some t.kind) ts

def mark (target : Target) (ts : List Token) : List Marked := markFrom target none ts

/-- Whether there is a token, and it leaves no space. -/
def touches : Option Token → Bool
  | none => false
  | some t => !t.isTrivia

def unpaddedFrom (s : Sides) (before : Option Token) : List Marked → List Remark
  | [] => []
  | m :: ms =>
    let tight := s.before && touches before || s.after && touches (ms.head?.map Marked.token)
    let rest := unpaddedFrom s (some m.token) ms
    match m.violation with
    | some v => if tight then ⟨v, m.token.position⟩ :: rest else rest
    | none => rest

def needsSpace (s : Sides) (u t : Marked) : Bool :=
  u.violation.isSome && s.after && !t.token.isTrivia ||
    t.violation.isSome && s.before && !u.token.isTrivia

/-- Put the spaces in. A new space has the place of the token after it. -/
def spread (s : Sides) : List Marked → List Token
  | [] => []
  | [m] => [m.token]
  | u :: t :: ms =>
    if needsSpace s u t then u.token :: .space t.token.position :: spread s (t :: ms)
    else u.token :: spread s (t :: ms)

def check (s : Sides) (target : Target) (ts : List Token) : List Remark :=
  unpaddedFrom s none (mark target ts)

def fix (s : Sides) (target : Target) (ts : List Token) : List Token :=
  spread s (mark target ts)

end Padding

namespace Blank

/-- What stands before a token on its line: nothing but blanks, some token, or
one with a space behind it. -/
inductive Before where
  | lineStart
  | token
  | space
deriving DecidableEq, Repr

def Before.next : Before → Kind → Before
  | _, .newline => lineStart
  | lineStart, .whitespace => lineStart
  | _, .whitespace => space
  | _, _ => token

/-- Mark each blank behind a space. Those that open a line are left alone. -/
def markSpaces (b : Before) : List Token → List (Token × Bool)
  | [] => []
  | t :: ts => (t, b = .space && t.kind = .whitespace) :: markSpaces (b.next t.kind) ts

def breakAhead (ts : List Token) : Bool :=
  (ts.takeWhile Token.isTrivia).any fun t => t.kind = .newline

/-- Mark the trivia behind two line breaks up to the last line break of the
run, `count` line breaks of the run being passed already. -/
def markLines (count : Nat) : List Token → List (Token × Bool)
  | [] => []
  | t :: ts =>
    let passed := if t.kind = .newline then count + 1 else if t.isTrivia then count else 0
    (t, 2 ≤ count && breakAhead (t :: ts)) :: markLines passed ts

def dropMarked (ms : List (Token × Bool)) : List Token :=
  ms.filterMap fun m => if m.2 then none else some m.1

def checkSpaces (ts : List Token) : List Remark :=
  (markSpaces .lineStart ts).filterMap fun m =>
    if m.2 then some ⟨.repeatedSpace, m.1.position⟩ else none

def fixSpaces (ts : List Token) : List Token := dropMarked (markSpaces .lineStart ts)

def checkLines (ts : List Token) : List Remark :=
  (markLines 0 ts).filterMap fun m =>
    if m.2 && m.1.kind = .newline then some ⟨.tooManyBlankLines, m.1.position⟩ else none

def fixLines (ts : List Token) : List Token := dropMarked (markLines 0 ts)

end Blank

end LetScript
