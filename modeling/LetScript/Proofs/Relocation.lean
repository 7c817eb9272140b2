import LetScript.Proofs.Line

/-! Moving tokens to other places. Reading looks at no place, so it moves
trees and errors along with the tokens. -/
namespace LetScript

section
variable (g : Position → Position)

def Token.relocate (t : Token) : Token := { t with position := g t.position }

@[simp] theorem Token.kind_relocate (t : Token) : (t.relocate g).kind = t.kind := rfl
@[simp] theorem Token.value_relocate (t : Token) : (t.relocate g).value = t.value := rfl
@[simp] theorem Token.position_relocate (t : Token) : (t.relocate g).position = g t.position := rfl

def Expr.relocate : Expr → Expr
  | .identifier x => .identifier { x with position := g x.position }
  | .typed x => .typed { x with position := g x.position }
  | .literal l p => .literal l (g p)
  | .binary o left right => .binary o left.relocate right.relocate
  | .signed o inner p => .signed o inner.relocate (g p)
  | .call f argument p => .call f argument.relocate (g p)

mutual

def Statement.relocate : Statement → Statement
  | .declare d x value p =>
    .declare d { x with position := g x.position } (value.map (Expr.relocate g)) (g p)
  | .assign target value =>
    .assign { target with position := g target.position } (value.relocate g)
  | .call f argument p => .call f (argument.relocate g) (g p)
  | .branch condition thenPart elsePart p =>
    .branch (condition.relocate g) (relocateBlock thenPart) (relocateElse elsePart) (g p)

def relocateBlock : List Statement → List Statement
  | [] => []
  | s :: ss => s.relocate :: relocateBlock ss

def relocateElse : Option (List Statement) → Option (List Statement)
  | none => none
  | some ss => some (relocateBlock ss)

end

def SyntaxError.relocate (e : SyntaxError) : SyntaxError := { e with position := g e.position }

/-- The answer of a reader with its places moved. -/
def moved {α β : Type} (f : α → β) : Except SyntaxError α → Except SyntaxError β
  | .error e => .error (e.relocate g)
  | .ok a => .ok (f a)

end

section
variable {g : Position → Position}

theorem moved_bind {α β γ δ : Type} {x : Except SyntaxError α} {x' : Except SyntaxError γ}
    {k : α → Except SyntaxError β} {k' : γ → Except SyntaxError δ} {f : α → γ} {h : β → δ}
    (hx : x' = moved g f x) (hk : ∀ a, x = .ok a → k' (f a) = moved g h (k a)) :
    x'.bind k' = moved g h (x.bind k) := by
  rw [hx]
  cases x with
  | error e => rfl
  | ok a => exact hk a rfl

theorem moved_map {α β γ δ : Type} {x : Except SyntaxError α} {x' : Except SyntaxError γ}
    {k : α → β} {k' : γ → δ} {f : α → γ} {h : β → δ}
    (hx : x' = moved g f x) (hk : ∀ a, k' (f a) = h (k a)) : x'.map k' = moved g h (x.map k) := by
  rw [hx]
  cases x with
  | error e => rfl
  | ok a => simp [moved, Except.map, hk]

/-- The expression and the rest with their places moved. -/
def relocateRead (g : Position → Position) (r : Expr × List Token) : Expr × List Token :=
  (r.1.relocate g, r.2.map (Token.relocate g))

@[simp] theorem cutAtClose_relocate (opening closing : Kind) (d : Nat) (ts : List Token) :
    cutAtClose opening closing d (ts.map (Token.relocate g)) =
      (cutAtClose opening closing d ts).map fun r =>
        (r.1.map (Token.relocate g), r.2.map (Token.relocate g)) := by
  induction ts generalizing d with
  | nil => rfl
  | cons t ts ih =>
    simp only [List.map_cons, cutAtClose, Token.kind_relocate, ih]
    split
    · simp [Function.comp_def]
    · split
      · cases d <;> simp [Function.comp_def]
      · simp [Function.comp_def]

@[simp] theorem endPosition_relocate (hg : g .start = .start) (ts : List Token) :
    endPosition (ts.map (Token.relocate g)) = g (endPosition ts) := by
  simp only [endPosition, List.getLast?_map]
  cases ts.getLast? with
  | none => exact hg.symm
  | some t => rfl

@[simp] theorem infixPower?_relocate (t : Token) : (t.relocate g).infixPower? = t.infixPower? := rfl

@[simp] theorem nameText_relocate (t : Token) : (t.relocate g).nameText = t.nameText := rfl

mutual

theorem groupAt_relocate (hg : g .start = .start) (stop : Position) (ts : List Token) :
    groupAt (g stop) (ts.map (Token.relocate g)) = moved g (relocateRead g) (groupAt stop ts) := by
  match ts with
  | [] => simp [moved, SyntaxError.unexpected, SyntaxError.of, SyntaxError.relocate]
  | t :: ts =>
    rw [List.map_cons, groupAt_cons, groupAt_cons]
    simp only [Token.kind_relocate, Token.position_relocate, cutAtParen, cutAtClose_relocate]
    split
    · cases hc : cutAtClose .openParen .closeParen 0 ts with
      | none => rfl
      | some r =>
        have hlen := cutAtClose_length hc
        exact moved_map (readExpr_relocate hg t.position r.1) fun _ => rfl
    · rfl
termination_by 4 * ts.length
decreasing_by
  simp only [List.length_cons]
  omega

theorem operandAt_relocate (hg : g .start = .start) (stop : Position) (ts : List Token) :
    operandAt (g stop) (ts.map (Token.relocate g)) =
      moved g (relocateRead g) (operandAt stop ts) := by
  match ts with
  | [] => simp [moved, SyntaxError.of, SyntaxError.relocate]
  | t :: ts =>
    have hsign (o : Operator) :
        ((aboveAt (g stop) signPower (ts.map (Token.relocate g))).map
          fun r => (Expr.signed o r.1 (g t.position), r.2)) =
        moved g (relocateRead g)
          ((aboveAt stop signPower ts).map fun r => (Expr.signed o r.1 t.position, r.2)) :=
      moved_map (aboveAt_relocate hg stop signPower ts) fun _ => rfl
    have hcall (f : Builtin) :
        ((groupAt (g stop) (ts.map (Token.relocate g))).map
          fun r => (Expr.call f r.1 (g t.position), r.2)) =
        moved g (relocateRead g)
          ((groupAt stop ts).map fun r => (Expr.call f r.1 t.position, r.2)) :=
      moved_map (groupAt_relocate hg stop ts) fun _ => rfl
    have hgroup := groupAt_relocate hg stop (t :: ts)
    rw [List.map_cons] at hgroup ⊢
    rw [operandAt_cons, operandAt_cons]
    simp only [Token.value_relocate, Token.kind_relocate, Token.position_relocate,
      nameText_relocate]
    split
    · rfl
    · rfl
    · rfl
    · exact hsign .sum
    · exact hsign .subtract
    · exact hcall .readInput
    · exact hcall .readEnv
    · split
      · rfl
      · exact hgroup
      · rfl
termination_by 4 * ts.length + 1
decreasing_by
  all_goals simp only [List.length_cons]
  all_goals omega

theorem aboveAt_relocate (hg : g .start = .start) (stop : Position) (least : Nat)
    (ts : List Token) :
    aboveAt (g stop) least (ts.map (Token.relocate g)) =
      moved g (relocateRead g) (aboveAt stop least ts) := by
  rw [aboveAt_eq, aboveAt_eq]
  refine moved_bind (operandAt_relocate hg stop ts) fun r hr => ?_
  have hlen := operandAt_length hr
  exact moreAt_relocate hg stop least r.1 r.2
termination_by 4 * ts.length + 2
decreasing_by
  · omega
  · omega

theorem moreAt_relocate (hg : g .start = .start) (stop : Position) (least : Nat) (left : Expr)
    (ts : List Token) :
    moreAt (g stop) least (left.relocate g) (ts.map (Token.relocate g)) =
      moved g (relocateRead g) (moreAt stop least left ts) := by
  match ts with
  | [] =>
    rw [List.map_nil, moreAt_nil, moreAt_nil]
    rfl
  | t :: ts =>
    rw [List.map_cons, moreAt_cons, moreAt_cons, infixPower?_relocate]
    cases t.infixPower? with
    | none => rfl
    | some b =>
      obtain ⟨o, toLeft, toRight⟩ := b
      simp only
      split
      · rfl
      · refine moved_bind (aboveAt_relocate hg stop toRight ts) fun r hr => ?_
        have hlen := aboveAt_length hr
        exact moreAt_relocate hg stop least (.binary o left r.1) r.2
termination_by 4 * ts.length
decreasing_by
  all_goals simp only [List.length_cons]
  all_goals omega

@[simp] theorem readExpr_relocate (hg : g .start = .start) (before : Position) (ts : List Token) :
    readExpr (g before) (ts.map (Token.relocate g)) =
      moved g (Expr.relocate g) (readExpr before ts) := by
  have hab := aboveAt_relocate hg (endPosition ts) 0 ts
  rw [readExpr_eq, readExpr_eq, endPosition_relocate hg, hab]
  by_cases hts : ts = []
  · simp [hts, moved, SyntaxError.of, SyntaxError.relocate]
  · rw [if_neg (by simpa using hts), if_neg hts]
    cases aboveAt (endPosition ts) 0 ts with
    | error e => rfl
    | ok r =>
      obtain ⟨e, rest⟩ := r
      cases rest <;> rfl
termination_by 4 * ts.length + 3

end

def Line.relocate (g : Position → Position) (l : Line) : Line :=
  ⟨l.first.relocate g, l.rest.map (Token.relocate g)⟩

def Cut.relocate (g : Position → Position) (c : Cut) : Cut :=
  ⟨c.lines.map (Line.relocate g), c.fault.map (SyntaxError.relocate g)⟩

@[simp] theorem tokens_relocate (l : Line) :
    (l.relocate g).tokens = l.tokens.map (Token.relocate g) := rfl

@[simp] theorem elseFollows_relocate (ts : List Token) :
    elseFollows (ts.map (Token.relocate g)) = elseFollows ts := by
  cases ts <;> rfl

@[simp] theorem cons_relocate (l : Line) (c : Cut) :
    (c.cons l).relocate g = (c.relocate g).cons (l.relocate g) := rfl

theorem cutFrom_relocate (hg : g .start = .start) (d : Nat) (current ts : List Token) :
    cutFrom d (current.map (Token.relocate g)) (ts.map (Token.relocate g)) =
      (cutFrom d current ts).relocate g := by
  induction ts generalizing d current with
  | nil =>
    cases current with
    | nil => rfl
    | cons f r =>
      have he := endPosition_relocate hg (f :: r)
      rw [List.map_cons] at he
      simp only [List.map_nil, List.map_cons, cutFrom, he]
      split <;> rfl
  | cons t ts ih =>
    have pass (d' : Nat) : cutFrom d' (current.map (Token.relocate g) ++ [t.relocate g])
        (ts.map (Token.relocate g)) = (cutFrom d' (current ++ [t]) ts).relocate g := by
      simpa using ih d' (current ++ [t])
    have fresh := ih 0 []
    simp only [List.map_cons, cutFrom, Token.kind_relocate]
    split
    · exact pass (d + 1)
    · rcases d with _ | _ | d
      · rfl
      · cases current with
        | nil => exact pass 0
        | cons f r =>
          simp only [List.map_cons, Token.kind_relocate, elseFollows_relocate]
          split
          · rw [cons_relocate, ← fresh]
            simp [Line.relocate]
          · exact pass 0
      · exact pass (d + 1)
    · cases d with
      | zero =>
        cases current with
        | nil => exact fresh
        | cons f r =>
          simp only [List.map_cons]
          rw [cons_relocate, ← fresh]
          rfl
      | succ d => exact pass (d + 1)
    · exact pass d

@[simp] theorem cutLines_relocate (hg : g .start = .start) (ts : List Token) :
    cutLines (ts.map (Token.relocate g)) = (cutLines ts).relocate g := cutFrom_relocate hg 0 [] ts

@[simp] theorem firstExcess?_relocate (d : Nat) (ts : List Token) :
    firstExcess? d (ts.map (Token.relocate g)) = (firstExcess? d ts).map g := by
  induction ts generalizing d with
  | nil => rfl
  | cons t ts ih =>
    simp only [List.map_cons, firstExcess?, Token.kind_relocate, ih]
    split
    · rfl
    · split
      · cases d <;> rfl
      · rfl

@[simp] theorem countKind_relocate (k : Kind) (ts : List Token) :
    countKind k (ts.map (Token.relocate g)) = countKind k ts := by
  simp only [countKind, List.countP_map]
  rfl

@[simp] theorem checkParentheses_relocate (hg : g .start = .start) (ts : List Token) :
    checkParentheses (ts.map (Token.relocate g)) = moved g id (checkParentheses ts) := by
  simp only [checkParentheses, firstExcess?_relocate, countKind_relocate]
  cases firstExcess? 0 ts with
  | some p => rfl
  | none =>
    simp only [Option.map_none]
    split
    · rfl
    · cases ts with
      | nil => simp [moved, SyntaxError.relocate, SyntaxError.of, hg]
      | cons t ts => rfl

@[simp] theorem checkForm_relocate (es : List Expected) (ts : List Token) :
    checkForm es (ts.map (Token.relocate g)) = moved g id (checkForm es ts) := by
  induction es generalizing ts with
  | nil => cases ts <;> rfl
  | cons e es ih =>
    cases ts with
    | nil => cases e <;> rfl
    | cons t ts =>
      cases e with
      | kind k =>
        simp only [List.map_cons, checkForm, Token.kind_relocate, ih]
        split <;> rfl
      | operator o =>
        have ho : (t.relocate g).isOperator o = t.isOperator o := rfl
        simp only [List.map_cons, checkForm, ho, ih]
        split <;> rfl

@[simp] theorem tooFew_relocate (hg : g .start = .start) (s : String) (n : Nat) (ts : List Token) :
    tooFew s n (ts.map (Token.relocate g)) = (tooFew s n ts).relocate g := by
  simp [tooFew, endPosition_relocate hg, SyntaxError.of, SyntaxError.relocate]

@[simp] theorem takeParens_relocate (stop : Position) (ts : List Token) :
    takeParens (g stop) (ts.map (Token.relocate g)) =
      moved g (fun r => (g r.1, r.2.1.map (Token.relocate g), r.2.2.map (Token.relocate g)))
        (takeParens stop ts) := by
  cases ts with
  | nil => rfl
  | cons t ts =>
    simp only [List.map_cons, takeParens, Token.kind_relocate, cutAtParen, cutAtClose_relocate]
    split
    · cases cutAtClose .openParen .closeParen 0 ts <;> rfl
    · rfl

@[simp] theorem takeBraces_relocate (stop : Position) (ts : List Token) :
    takeBraces (g stop) (ts.map (Token.relocate g)) =
      moved g (fun r => (r.1.map (Token.relocate g), r.2.map (Token.relocate g)))
        (takeBraces stop ts) := by
  cases ts with
  | nil => rfl
  | cons t ts =>
    simp only [List.map_cons, takeBraces, Token.kind_relocate, cutAtBrace, cutAtClose_relocate]
    split
    · cases cutAtClose .openBrace .closeBrace 0 ts <;> rfl
    · rfl

theorem readBareDeclaration_relocate (hg : g .start = .start) (ts : List Token) :
    readBareDeclaration (ts.map (Token.relocate g)) =
      moved g (Statement.relocate g) (readBareDeclaration ts) := by
  refine moved_bind (checkForm_relocate _ ts) fun _ _ => ?_
  have hfew := tooFew_relocate hg "declaration" 4 ts
  match ts with
  | [] => simpa [moved] using hfew
  | [_] => simpa [moved] using hfew
  | [_, _] => simpa [moved] using hfew
  | [_, _, _] => simpa [moved] using hfew
  | [d, name, _, type] =>
    simp only [List.map_cons, List.map_nil]
    have hd : declaratorOf (d.relocate g) = declaratorOf d := rfl
    rw [hd]
    split <;> rfl
  | _ :: _ :: _ :: _ :: extra :: _ => rfl

theorem readDeclaration_relocate (hg : g .start = .start) (ts : List Token) :
    readDeclaration (ts.map (Token.relocate g)) =
      moved g (Statement.relocate g) (readDeclaration ts) := by
  refine moved_bind (checkForm_relocate _ ts) fun _ _ => ?_
  have hfew := tooFew_relocate hg "declaration" 6 ts
  match ts with
  | [] => simpa [moved] using hfew
  | [_] => simpa [moved] using hfew
  | [_, _] => simpa [moved] using hfew
  | [_, _, _] => simpa [moved] using hfew
  | [_, _, _, _] => simpa [moved] using hfew
  | [_, _, _, _, _] => simpa [moved] using hfew
  | d :: name :: _ :: type :: equal :: v :: vs =>
    exact moved_bind (readExpr_relocate hg equal.position (v :: vs)) fun _ _ => rfl

theorem readAssignment_relocate (hg : g .start = .start) (ts : List Token) :
    readAssignment (ts.map (Token.relocate g)) =
      moved g (Statement.relocate g) (readAssignment ts) := by
  refine moved_bind (checkForm_relocate _ ts) fun _ _ => ?_
  have hfew := tooFew_relocate hg "assignment" 3 ts
  match ts with
  | [] => simpa [moved] using hfew
  | [_] => simpa [moved] using hfew
  | [_, _] => simpa [moved] using hfew
  | name :: equal :: v :: vs =>
    exact moved_bind (readExpr_relocate hg equal.position (v :: vs)) fun _ _ => rfl

theorem readCall_relocate (hg : g .start = .start) (l : Line) :
    readCall (l.relocate g) = moved g (Statement.relocate g) (readCall l) := by
  have hstop : endPosition (l.relocate g).tokens = g (endPosition l.tokens) :=
    endPosition_relocate hg l.tokens
  obtain ⟨first, rest⟩ := l
  simp only [readCall, Line.relocate, Token.value_relocate] at hstop ⊢
  cases first.value with
  | builtin f =>
    simp only [hstop]
    refine moved_bind (takeParens_relocate _ rest) fun r _ => ?_
    obtain ⟨p, inside, after⟩ := r
    cases after with
    | nil => exact moved_bind (readExpr_relocate hg p inside) fun _ _ => rfl
    | cons extra more => rfl
  | _ => rfl

@[simp] theorem looksLikeCall_relocate (l : Line) :
    (l.relocate g).looksLikeCall = l.looksLikeCall := by
  obtain ⟨first, rest⟩ := l
  cases rest with
  | nil => rfl
  | cons t ts =>
    simp only [Line.looksLikeCall, Line.relocate, List.map_cons, Token.kind_relocate]
    cases first.kind <;> rfl

theorem mapM_relocate {ls : List Line}
    (h : ∀ l ∈ ls,
      readStatement (l.relocate g) = moved g (Statement.relocate g) (readStatement l)) :
    (ls.map (Line.relocate g)).mapM readStatement =
      moved g (relocateBlock g) (ls.mapM readStatement) := by
  induction ls with
  | nil => rfl
  | cons l ls ih =>
    rw [List.map_cons, List.mapM_cons, List.mapM_cons]
    refine moved_bind (h l (by simp)) fun s _ => ?_
    exact moved_bind (ih fun l hl => h l (by simp [hl])) fun _ _ => rfl

mutual

theorem readBranch_relocate (hg : g .start = .start) (l : Line) :
    readBranch (l.relocate g) = moved g (Statement.relocate g) (readBranch l) := by
  have hstop : endPosition (l.relocate g).tokens = g (endPosition l.tokens) :=
    endPosition_relocate hg l.tokens
  have hlen : l.tokens.length = l.rest.length + 1 := by simp [Line.tokens]
  rw [readBranch_eq, readBranch_eq, hstop]
  refine moved_bind (takeParens_relocate _ l.rest) fun ⟨p, inside, after⟩ hr => ?_
  have hlen₁ : inside.length + after.length + 2 = l.rest.length := takeParens_length hr
  refine moved_bind (readExpr_relocate hg p inside) fun condition _ => ?_
  refine moved_bind (takeBraces_relocate _ after) fun ⟨body, tail⟩ hb => ?_
  have hlen₂ : body.length + tail.length + 2 = after.length := takeBraces_length hb
  refine moved_bind (readBlock_relocate hg body) fun thenPart _ => ?_
  match tail with
  | [] => rfl
  | t :: more =>
    simp only [List.map_cons, readElse]
    have hk : (t.relocate g).kind = t.kind := rfl
    by_cases ht : t.kind = .elseWord
    · rw [if_pos (hk.trans ht), if_pos ht]
      refine moved_bind (takeBraces_relocate _ more) fun ⟨other, extra⟩ hc => ?_
      have hlen₃ : other.length + extra.length + 2 = more.length := takeBraces_length hc
      refine moved_bind (readBlock_relocate hg other) fun elsePart _ => ?_
      cases extra <;> rfl
    · rw [if_neg (hk ▸ ht), if_neg ht]
      rfl
termination_by 3 * l.tokens.length
decreasing_by
  all_goals simp only [List.length_cons] at *
  all_goals omega

theorem readStatement_relocate (hg : g .start = .start) (l : Line) :
    readStatement (l.relocate g) = moved g (Statement.relocate g) (readStatement l) := by
  rw [readStatement_eq, readStatement_eq]
  refine moved_bind (checkParentheses_relocate hg l.tokens) fun _ _ => ?_
  have hk : (l.relocate g).first.kind = l.first.kind := rfl
  have hany : ((l.relocate g).tokens.any fun t => t.isOperator .equal) =
      l.tokens.any fun t => t.isOperator .equal := by
    simp only [tokens_relocate, List.any_map]
    rfl
  rw [hk, hany, looksLikeCall_relocate, tokens_relocate]
  split
  · split
    · exact readDeclaration_relocate hg l.tokens
    · exact readBareDeclaration_relocate hg l.tokens
  · exact readBranch_relocate hg l
  · split
    · exact readCall_relocate hg l
    · split
      · exact readAssignment_relocate hg l.tokens
      · rfl
termination_by 3 * l.tokens.length + 1

theorem readBlock_relocate (hg : g .start = .start) (ts : List Token) :
    readBlock (ts.map (Token.relocate g)) = moved g (relocateBlock g) (readBlock ts) := by
  rw [readBlock_eq, readBlock_eq, cutLines_relocate hg]
  have hlines : ∀ l ∈ (cutLines ts).lines,
      readStatement (l.relocate g) = moved g (Statement.relocate g) (readStatement l) :=
    fun l hl => readStatement_relocate hg l
  refine moved_bind (mapM_relocate hlines) fun ss _ => ?_
  simp only [Cut.relocate]
  cases (cutLines ts).fault <;> rfl
termination_by 3 * ts.length + 2
decreasing_by
  have := cutLines_length hl
  omega

end

end

/-- A token without its place. -/
def Token.erase (t : Token) : Token := t.relocate fun _ => .start

/-- Statements without their places. -/
def eraseBlock (ss : List Statement) : List Statement := relocateBlock (fun _ => .start) ss

/-- Two answers of the parser that differ in places only. -/
inductive SameReading :
    Except SyntaxError (List Statement) → Except SyntaxError (List Statement) → Prop
  | ok {ss ss' : List Statement} : eraseBlock ss = eraseBlock ss' → SameReading (.ok ss) (.ok ss')
  | error {e e' : SyntaxError} :
      e.fault = e'.fault → e.hint = e'.hint → SameReading (.error e) (.error e')

theorem sameReading_of_moved {x y : Except SyntaxError (List Statement)}
    (h : moved (fun _ => .start) eraseBlock x = moved (fun _ => .start) eraseBlock y) :
    SameReading x y := by
  cases x with
  | error e =>
    cases y with
    | error e' =>
      simp only [moved, SyntaxError.relocate, Except.error.injEq, SyntaxError.mk.injEq] at h
      exact .error h.1 h.2.2
    | ok ss' => cases h
  | ok ss =>
    cases y with
    | error e' => cases h
    | ok ss' => exact .ok (Except.ok.inj h)

/-- What a list of tokens stands for depends on its significant tokens, and not
on their places. -/
theorem sameReading_of_erase {ts ts' : List Token}
    (h : (significant ts).map Token.erase = (significant ts').map Token.erase) :
    SameReading (parse ts) (parse ts') := by
  apply sameReading_of_moved
  have hread (us : List Token) :
      moved (fun _ => .start) eraseBlock (parse us) =
        readBlock ((significant us).map Token.erase) :=
    (readBlock_relocate rfl (significant us)).symm
  rw [hread, hread, h]

end LetScript
