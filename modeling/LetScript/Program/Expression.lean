import LetScript.Tree
import LetScript.Program.Bracket

/-! Reading expressions. Products bind tighter than sums, a sign binds tighter
than both, and operators of equal strength group to the left. -/
namespace LetScript

/-- How strongly an operator binds to its left and to its right. The
assignment sign binds nothing. -/
def Operator.power? : Operator → Option (Nat × Nat)
  | sum => some (1, 2)
  | subtract => some (1, 2)
  | multiply => some (3, 4)
  | divide => some (3, 4)
  | equal => none

def signPower : Nat := 5

/-- An operator between two operands, decided by the value alone. -/
def Token.infixPower? (t : Token) : Option (Operator × Nat × Nat) :=
  match t.value with
  | .operator o => o.power?.map fun b => (o, b)
  | _ => none

abbrev Shorter (ts : List Token) : Type := { rest : List Token // rest.length < ts.length }

mutual

/-- The expression between the parentheses that `ts` begins with. Errors about
a missing token are put at the place `stop`. -/
def readGroup (stop : Position) (ts : List Token) :
    Except SyntaxError (Expr × Shorter ts) :=
  match ts with
  | [] => .error (.unexpected .openParen .semicolon stop)
  | t :: more =>
    if t.kind = .openParen then
      match _h : cutAtParen more with
      | none => .error (.unexpected .closeParen .semicolon stop)
      | some (inside, rest) =>
        match readExpr t.position inside with
        | .error e => .error e
        | .ok e => .ok (e, ⟨rest, by have := cutAtClose_length _h; simp; omega⟩)
    else .error (.unexpected .openParen t.kind t.position)
termination_by 4 * ts.length
decreasing_by
  have := cutAtClose_length _h
  simp only [List.length_cons]
  omega

/-- An operand: a literal, a signed operand, a call, a name or a group. The
value of a token decides before its kind does. -/
def readOperand (stop : Position) (ts : List Token) :
    Except SyntaxError (Expr × Shorter ts) :=
  match ts with
  | [] => .error (.of .emptyExpression stop)
  | t :: more =>
    let here : Shorter (t :: more) := ⟨more, by simp⟩
    match t.value with
    | .number x => .ok (.literal (.number x) t.position, here)
    | .string s => .ok (.literal (.string s) t.position, here)
    | .boolean b => .ok (.literal (.boolean b) t.position, here)
    | .operator .sum =>
      match readAbove stop signPower more with
      | .error e => .error e
      | .ok (e, rest) => .ok (.signed .sum e t.position, ⟨rest.1, by have := rest.2; simp; omega⟩)
    | .operator .subtract =>
      match readAbove stop signPower more with
      | .error e => .error e
      | .ok (e, rest) =>
        .ok (.signed .subtract e t.position, ⟨rest.1, by have := rest.2; simp; omega⟩)
    | .builtin .readInput =>
      match readGroup stop more with
      | .error e => .error e
      | .ok (e, rest) =>
        .ok (.call .readInput e t.position, ⟨rest.1, by have := rest.2; simp; omega⟩)
    | .builtin .readEnv =>
      match readGroup stop more with
      | .error e => .error e
      | .ok (e, rest) =>
        .ok (.call .readEnv e t.position, ⟨rest.1, by have := rest.2; simp; omega⟩)
    | _ =>
      match t.kind with
      | .identifier => .ok (.identifier ⟨t.nameText, t.position⟩, here)
      | .openParen => readGroup stop (t :: more)
      | k => .error (.of (.invalidExpression k) t.position)
termination_by 4 * ts.length + 1
decreasing_by
  all_goals simp only [List.length_cons]
  all_goals omega

/-- The longest expression at the front of `ts` whose operators outside all
groups bind at least as strongly as `least`. -/
def readAbove (stop : Position) (least : Nat) (ts : List Token) :
    Except SyntaxError (Expr × Shorter ts) :=
  match readOperand stop ts with
  | .error e => .error e
  | .ok (left, rest) =>
    match readMore stop least left rest.1 with
    | .error e => .error e
    | .ok (e, last) => .ok (e, ⟨last.1, Nat.lt_of_le_of_lt last.2 rest.2⟩)
termination_by 4 * ts.length + 2
decreasing_by
  · omega
  · have := rest.2
    omega

def readMore (stop : Position) (least : Nat) (left : Expr) (ts : List Token) :
    Except SyntaxError (Expr × { rest : List Token // rest.length ≤ ts.length }) :=
  match ts with
  | [] => .ok (left, ⟨[], by simp⟩)
  | t :: more =>
    match t.infixPower? with
    | none => .ok (left, ⟨t :: more, by simp⟩)
    | some (o, toLeft, toRight) =>
      if toLeft < least then .ok (left, ⟨t :: more, by simp⟩)
      else
        match readAbove stop toRight more with
        | .error e => .error e
        | .ok (right, rest) =>
          match readMore stop least (.binary o left right) rest.1 with
          | .error e => .error e
          | .ok (e, last) =>
            .ok (e, ⟨last.1, by have := rest.2; have := last.2; simp; omega⟩)
termination_by 4 * ts.length
decreasing_by
  · simp only [List.length_cons]
    omega
  · have := rest.2
    simp only [List.length_cons]
    omega

def readExpr (before : Position) (ts : List Token) : Except SyntaxError Expr :=
  if ts = [] then .error (.of .emptyExpression before)
  else
    match readAbove (endPosition ts) 0 ts with
    | .error e => .error e
    | .ok (e, ⟨[], _⟩) => .ok e
    | .ok (_, ⟨t :: _, _⟩) => .error (.of (.invalidExpression t.kind) t.position)
termination_by 4 * ts.length + 3

end
end LetScript
