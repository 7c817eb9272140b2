import LetScript.Program.Expression
import LetScript.Proofs.Token

/-! Readers of expressions without the proofs that they carry about what is
left. Each of them gets the equation that its definition amounts to. -/
namespace LetScript

theorem bind_eq_ok {α β : Type} {x : Except SyntaxError α} {f : α → Except SyntaxError β} {b : β} :
    x.bind f = .ok b ↔ ∃ a, x = .ok a ∧ f a = .ok b := by
  cases x <;> simp

theorem map_eq_ok {ε α β : Type} {x : Except ε α} {f : α → β} {b : β} :
    x.map f = .ok b ↔ ∃ a, x = .ok a ∧ f a = b := by
  cases x <;> simp [Except.map]

theorem exists_of_isOk {ε α : Type} {x : Except ε α} (h : x.isOk) : ∃ a, x = .ok a := by
  cases x with
  | error e => exact nomatch h
  | ok a => exact ⟨a, rfl⟩

/-- The answer of a reader without the proof about what is left. -/
def plain {P : List Token → Prop}
    (r : Except SyntaxError (Expr × { rest : List Token // P rest })) :
    Except SyntaxError (Expr × List Token) :=
  r.map fun x => (x.1, x.2.1)

def groupAt (stop : Position) (ts : List Token) : Except SyntaxError (Expr × List Token) :=
  plain (readGroup stop ts)

def operandAt (stop : Position) (ts : List Token) : Except SyntaxError (Expr × List Token) :=
  plain (readOperand stop ts)

def aboveAt (stop : Position) (least : Nat) (ts : List Token) :
    Except SyntaxError (Expr × List Token) :=
  plain (readAbove stop least ts)

def moreAt (stop : Position) (least : Nat) (left : Expr) (ts : List Token) :
    Except SyntaxError (Expr × List Token) :=
  plain (readMore stop least left ts)

@[simp] theorem groupAt_nil (stop : Position) :
    groupAt stop [] = .error (.unexpected .openParen .semicolon stop) := by
  simp [groupAt, readGroup, plain, Except.map]

theorem groupAt_cons (stop : Position) (t : Token) (ts : List Token) :
    groupAt stop (t :: ts) =
      if t.kind = .openParen then
        match cutAtParen ts with
        | none => .error (.unexpected .closeParen .semicolon stop)
        | some (inside, rest) => (readExpr t.position inside).map fun e => (e, rest)
      else .error (.unexpected .openParen t.kind t.position) := by
  rw [groupAt, readGroup]
  split
  · split
    · rename_i h
      simp [plain, h, Except.map]
    · rename_i inside rest h
      have hr : (match cutAtParen ts with
          | none => .error (.unexpected .closeParen .semicolon stop)
          | some (inside, rest) => (readExpr t.position inside).map fun e => (e, rest)) =
          (readExpr t.position inside).map fun e => (e, rest) := by rw [h]
      rw [hr]
      cases readExpr t.position inside <;> rfl
  · simp [plain, Except.map]

theorem aboveAt_eq (stop : Position) (least : Nat) (ts : List Token) :
    aboveAt stop least ts = (operandAt stop ts).bind fun r => moreAt stop least r.1 r.2 := by
  rw [aboveAt, readAbove, operandAt]
  cases readOperand stop ts with
  | error e => rfl
  | ok r =>
    simp only [plain, Except.map, Except.bind, moreAt]
    cases readMore stop least r.1 r.2.1 with
    | error e => rfl
    | ok r => rfl

@[simp] theorem moreAt_nil (stop : Position) (least : Nat) (left : Expr) :
    moreAt stop least left [] = .ok (left, []) := by
  simp [moreAt, readMore, plain, Except.map]

theorem moreAt_cons (stop : Position) (least : Nat) (left : Expr) (t : Token) (ts : List Token) :
    moreAt stop least left (t :: ts) =
      match t.infixPower? with
      | none => .ok (left, t :: ts)
      | some (o, toLeft, toRight) =>
        if toLeft < least then .ok (left, t :: ts)
        else (aboveAt stop toRight ts).bind fun r =>
          moreAt stop least (.binary o left r.1) r.2 := by
  rw [moreAt, readMore]
  cases t.infixPower? with
  | none => rfl
  | some b =>
    obtain ⟨o, toLeft, toRight⟩ := b
    simp only [aboveAt]
    split
    · rfl
    · cases readAbove stop toRight ts with
      | error e => rfl
      | ok r =>
        simp only [plain, Except.map, Except.bind, moreAt]
        cases readMore stop least (.binary o left r.1) r.2.1 with
        | error e => rfl
        | ok r => rfl

@[simp] theorem operandAt_nil (stop : Position) :
    operandAt stop [] = .error (.of .emptyExpression stop) := by
  simp [operandAt, readOperand, plain, Except.map]

theorem readExpr_eq (before : Position) (ts : List Token) :
    readExpr before ts =
      if ts = [] then .error (.of .emptyExpression before)
      else
        match aboveAt (endPosition ts) 0 ts with
        | .error e => .error e
        | .ok (e, []) => .ok e
        | .ok (_, t :: _) => .error (.of (.invalidExpression t.kind) t.position) := by
  rw [readExpr, aboveAt]
  split
  · rfl
  · cases readAbove (endPosition ts) 0 ts with
    | error e => rfl
    | ok r =>
      obtain ⟨e, ⟨rest, h⟩⟩ := r
      cases rest <;> rfl

theorem readExpr_eq_bind (before : Position) (ts : List Token) :
    readExpr before ts =
      if ts = [] then .error (.of .emptyExpression before)
      else (aboveAt (endPosition ts) 0 ts).bind fun r =>
        match r.2 with
        | [] => .ok r.1
        | t :: _ => .error (.of (.invalidExpression t.kind) t.position) := by
  rw [readExpr_eq]
  rcases aboveAt (endPosition ts) 0 ts with e | ⟨e, _ | ⟨t, rest⟩⟩ <;> rfl

theorem operandAt_cons (stop : Position) (t : Token) (ts : List Token) :
    operandAt stop (t :: ts) =
      match t.value with
      | .number x => .ok (.literal (.number x) t.position, ts)
      | .string s => .ok (.literal (.string s) t.position, ts)
      | .boolean b => .ok (.literal (.boolean b) t.position, ts)
      | .operator .sum =>
        (aboveAt stop signPower ts).map fun r => (.signed .sum r.1 t.position, r.2)
      | .operator .subtract =>
        (aboveAt stop signPower ts).map fun r => (.signed .subtract r.1 t.position, r.2)
      | .builtin .readInput => (groupAt stop ts).map fun r => (.call .readInput r.1 t.position, r.2)
      | .builtin .readEnv => (groupAt stop ts).map fun r => (.call .readEnv r.1 t.position, r.2)
      | _ =>
        match t.kind with
        | .identifier => .ok (.identifier ⟨t.nameText, t.position⟩, ts)
        | .openParen => groupAt stop (t :: ts)
        | k => .error (.of (.invalidExpression k) t.position) := by
  obtain ⟨k, v, p⟩ := t
  rw [operandAt, readOperand]
  cases v with
  | operator o =>
    simp only [aboveAt]
    cases o with
    | sum => cases readAbove stop signPower ts <;> rfl
    | subtract => cases readAbove stop signPower ts <;> rfl
    | multiply => cases k <;> rfl
    | divide => cases k <;> rfl
    | equal => cases k <;> rfl
  | builtin f =>
    simp only [groupAt]
    cases f with
    | println => cases k <;> rfl
    | readInput => cases readGroup stop ts <;> rfl
    | readEnv => cases readGroup stop ts <;> rfl
  | typeName ty => cases k <;> rfl
  | raw s => cases k <;> rfl
  | number x => rfl
  | string s => rfl
  | boolean b => rfl

theorem length_of_plain {P : List Token → Prop}
    {r : Except SyntaxError (Expr × { rest : List Token // P rest })} {e : Expr}
    {rest : List Token} (h : plain r = .ok (e, rest)) : P rest := by
  obtain ⟨⟨e', more⟩, -, hm⟩ := map_eq_ok.mp h
  cases hm
  exact more.2

/-- Reading an operand takes at least one token. -/
theorem operandAt_length {stop : Position} {ts rest : List Token} {e : Expr}
    (h : operandAt stop ts = .ok (e, rest)) : rest.length < ts.length := length_of_plain h

theorem aboveAt_length {stop : Position} {least : Nat} {ts rest : List Token} {e : Expr}
    (h : aboveAt stop least ts = .ok (e, rest)) : rest.length < ts.length := length_of_plain h

end LetScript
