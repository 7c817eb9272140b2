import LetScript.Program.Expression
import LetScript.Program.Line

/-! Reading statements and programs. The first tokens of a line decide which
statement it is meant to be, and only then is its form checked. -/
namespace LetScript

/-- What must stand at a place of a line: a kind, or an operator as value. -/
inductive Expected where
  | kind (k : Kind)
  | operator (o : Operator)
deriving DecidableEq, Repr

def checkForm : List Expected → List Token → Except SyntaxError Unit
  | .kind k :: es, t :: ts =>
    if t.kind = k then checkForm es ts else .error (.unexpected k t.kind t.position)
  | .operator o :: es, t :: ts =>
    if t.isOperator o then checkForm es ts
    else .error (.of (.missingOperator o) t.position)
  | _, _ => .ok ()

def tooFew (statement : String) (least : Nat) (ts : List Token) : SyntaxError :=
  .of (.tooFewTokens statement least ts.length) (endPosition ts)

/-- The declaring word that a token stands for, which is `let` in doubt. -/
def declaratorOf (t : Token) : Declarator :=
  (t.rawText?.bind Declarator.ofKeyword?).getD .let_

def typeOf (t : Token) : TypeName :=
  match t.value with
  | .typeName ty => ty
  | _ => .any

def variableOf (name type : Token) : Variable := ⟨name.nameText, typeOf type, name.position⟩

/-- A declaration without a value. A constant must have one. -/
def readBareDeclaration (ts : List Token) : Except SyntaxError Statement := do
  checkForm [.kind .declarator, .kind .identifier, .kind .colon, .kind .typeName] ts
  match ts with
  | [d, name, _, type] =>
    if declaratorOf d = .const_ then .error (.of (.uninitializedConstant name.nameText) d.position)
    else .ok (.declare (declaratorOf d) (variableOf name type) none d.position)
  | _ :: _ :: _ :: _ :: extra :: _ => .error (.of (.missingOperator .equal) extra.position)
  | _ => .error (tooFew "declaration" 4 ts)

def readDeclaration (ts : List Token) : Except SyntaxError Statement := do
  checkForm [.kind .declarator, .kind .identifier, .kind .colon, .kind .typeName,
    .operator .equal] ts
  match ts with
  | d :: name :: _ :: type :: equal :: v :: vs =>
    let value ← readExpr equal.position (v :: vs)
    .ok (.declare (declaratorOf d) (variableOf name type) (some value) d.position)
  | _ => .error (tooFew "declaration" 6 ts)

def readAssignment (ts : List Token) : Except SyntaxError Statement := do
  checkForm [.kind .identifier, .operator .equal] ts
  match ts with
  | name :: equal :: v :: vs =>
    let value ← readExpr equal.position (v :: vs)
    .ok (.assign ⟨name.nameText, name.position⟩ value)
  | _ => .error (tooFew "assignment" 3 ts)

/-- Cut what stands between the parentheses that `ts` begins with from what
comes after them, and tell where they open. -/
def takeParens (stop : Position) (ts : List Token) :
    Except SyntaxError (Position × List Token × List Token) :=
  match ts with
  | [] => .error (.unexpected .openParen .semicolon stop)
  | t :: more =>
    if t.kind = .openParen then
      match cutAtParen more with
      | none => .error (.unexpected .closeParen .semicolon stop)
      | some (inside, rest) => .ok (t.position, inside, rest)
    else .error (.unexpected .openParen t.kind t.position)

theorem takeParens_length {stop p : Position} {ts inside rest : List Token}
    (h : takeParens stop ts = .ok (p, inside, rest)) :
    inside.length + rest.length + 2 = ts.length := by
  unfold takeParens at h
  split at h
  · simp at h
  · split at h
    · split at h
      · simp at h
      · rename_i hc
        cases h
        have := cutAtClose_length hc
        simp only [List.length_cons]
        omega
    · simp at h

def takeBraces (stop : Position) (ts : List Token) :
    Except SyntaxError (List Token × List Token) :=
  match ts with
  | [] => .error (.unexpected .openBrace .semicolon stop)
  | t :: more =>
    if t.kind = .openBrace then
      match cutAtBrace more with
      | none => .error (.of .unbalancedBraces t.position)
      | some (inside, rest) => .ok (inside, rest)
    else .error (.unexpected .openBrace t.kind t.position)

theorem takeBraces_length {stop : Position} {ts inside rest : List Token}
    (h : takeBraces stop ts = .ok (inside, rest)) :
    inside.length + rest.length + 2 = ts.length := by
  unfold takeBraces at h
  split at h
  · simp at h
  · split at h
    · split at h
      · simp at h
      · rename_i hc
        cases h
        have := cutAtClose_length hc
        simp only [List.length_cons]
        omega
    · simp at h

/-- A call as a statement. Any built-in function can be called. -/
def readCall (l : Line) : Except SyntaxError Statement :=
  match l.first.value with
  | .builtin f => do
    let (p, inside, rest) ← takeParens (endPosition l.tokens) l.rest
    match rest with
    | [] => .ok (.call f (← readExpr p inside) l.first.position)
    | extra :: _ => .error (.unexpected .semicolon extra.kind extra.position)
  | _ => .error (.unexpected .builtin l.first.kind l.first.position)

def Line.looksLikeCall (l : Line) : Bool :=
  match l.first.kind, l.rest with
  | .builtin, _ => true
  | .identifier, t :: _ => t.kind = .openParen
  | _, _ => false

mutual

def readBranch (l : Line) : Except SyntaxError Statement :=
  let stop := endPosition l.tokens
  match _hc : takeParens stop l.rest with
  | .error e => .error e
  | .ok (p, inside, rest) =>
    match readExpr p inside with
    | .error e => .error e
    | .ok condition =>
      match _ht : takeBraces stop rest with
      | .error e => .error e
      | .ok (thenTokens, rest) =>
        match readBlock thenTokens with
        | .error e => .error e
        | .ok thenPart =>
          match rest with
          | [] => .ok (.branch condition thenPart none l.first.position)
          | t :: rest =>
            if t.kind = .elseWord then
              match _he : takeBraces stop rest with
              | .error e => .error e
              | .ok (elseTokens, rest) =>
                match readBlock elseTokens with
                | .error e => .error e
                | .ok elsePart =>
                  match rest with
                  | [] => .ok (.branch condition thenPart (some elsePart) l.first.position)
                  | extra :: _ => .error (.unexpected .semicolon extra.kind extra.position)
            else .error (.unexpected .elseWord t.kind t.position)
termination_by 3 * l.tokens.length
decreasing_by
  all_goals have := takeParens_length _hc
  all_goals have := takeBraces_length _ht
  all_goals try have := takeBraces_length _he
  all_goals simp [Line.tokens] at *
  all_goals omega

def readStatement (l : Line) : Except SyntaxError Statement := do
  checkParentheses l.tokens
  match l.first.kind with
  | .declarator =>
    if l.tokens.any fun t => t.isOperator .equal then readDeclaration l.tokens
    else readBareDeclaration l.tokens
  | .ifWord => readBranch l
  | k =>
    if l.looksLikeCall then readCall l
    else if k = .identifier then readAssignment l.tokens
    else .error (.of (.unrecognizedStatement k) l.first.position)
termination_by 3 * l.tokens.length + 1

/-- The statements of a list of tokens without trivia. The first line with an
error decides, and an error in cutting the lines comes after all of them. -/
def readBlock (ts : List Token) : Except SyntaxError (List Statement) := do
  let statements ← (cutLines ts).lines.attach.mapM fun l => readStatement l.1
  match (cutLines ts).fault with
  | some e => .error e
  | none => .ok statements
termination_by 3 * ts.length + 2
decreasing_by
  have := cutLines_length l.2
  omega

end

theorem readBlock_eq (ts : List Token) :
    readBlock ts = (do
      let statements ← (cutLines ts).lines.mapM readStatement
      match (cutLines ts).fault with
      | some e => .error e
      | none => .ok statements) := by
  rw [readBlock]
  simp [List.mapM_subtype]

def parse (ts : List Token) : Except SyntaxError (List Statement) := readBlock (significant ts)

/-- The statement or the error of each line, and last the error in cutting the
lines. -/
def parseEachLine (ts : List Token) : List (Except SyntaxError Statement) :=
  let cut := cutLines (significant ts)
  cut.lines.map readStatement ++ cut.fault.toList.map .error

end LetScript
