import LetScript.Proofs.Progress

/-! Statements by index. Lines and blocks are read once more with indices and ranges, and the
statements of a block only after a check that it is shorter than the block around it. Main
statement: for no list of tokens does a check fail, and the outcome is that of `parse` and
`parseEachLine`. -/
namespace LetScript
namespace Guarded

/-! ### Readers -/

/-- Compare a line with a pattern, then ask for a number of tokens. -/
def checkShape (statement : String) (es : List Expected) (least : Nat) (ts : List Token) :
    Except SyntaxError Unit := do
  checkForm es ts
  if ts.length < max least es.length then .error (tooFew statement (max least es.length) ts)
  else .ok ()

def variableAt (ts : List Token) : Checked Variable := do
  let name ← tokenAt ts 1
  let type ← tokenAt ts 3
  return variableOf name type

def bareDeclarationOf (ts : List Token) : Checked Statement := do
  checkShape "declaration" [.kind .declarator, .kind .identifier, .kind .colon, .kind .typeName] 4 ts
  match ts[4]? with
  | some extra => throw (.of (.missingOperator .equal) extra.position)
  | none =>
    let d ← tokenAt ts 0
    if declaratorOf d = .const_ then
      let name ← tokenAt ts 1
      throw (.of (.uninitializedConstant name.nameText) d.position)
    else
      let x ← variableAt ts
      return .declare (declaratorOf d) x none d.position

def declarationOf (ts : List Token) : Checked Statement := do
  checkShape "declaration" [.kind .declarator, .kind .identifier, .kind .colon, .kind .typeName,
    .operator .equal] 6 ts
  let inside ← slice ts 5 ts.length
  let equal ← tokenAt ts 4
  let value ← exprOf equal.position inside
  let x ← variableAt ts
  let d ← tokenAt ts 0
  return .declare (declaratorOf d) x (some value) d.position

def assignmentOf (ts : List Token) : Checked Statement := do
  checkShape "assignment" [.kind .identifier, .operator .equal] 3 ts
  let name ← tokenAt ts 0
  let inside ← slice ts 2 ts.length
  let equal ← tokenAt ts 1
  let value ← exprOf equal.position inside
  return .assign ⟨name.nameText, name.position⟩ value

/-- The index of the parenthesis that closes the one at the index 1. -/
def closeOfParens (ts : List Token) : Checked Nat := do
  expectAt ts 1 .openParen
  match ← matchingClose ts 1 with
  | none => throw (.unexpected .closeParen .semicolon (endPosition ts))
  | some close => return close

/-- The expression between the parentheses at the index 1 and at a later index. -/
def exprInParens (ts : List Token) (close : Nat) : Checked Expr := do
  let inside ← slice ts 2 close
  let opening ← tokenAt ts 1
  exprOf opening.position inside

def callOf (ts : List Token) : Checked Statement := do
  let first ← tokenAt ts 0
  match first.value with
  | .builtin f =>
    let close ← closeOfParens ts
    match ts[close + 1]? with
    | some extra => throw (.unexpected .semicolon extra.kind extra.position)
    | none =>
      let argument ← exprInParens ts close
      return .call f argument first.position
  | _ => throw (.unexpected .builtin first.kind first.position)

def startsWith (ts : List Token) (k : Kind) : Bool := ts[0]?.any fun t => t.kind = k

def callFollows (ts : List Token) : Bool :=
  startsWith ts .builtin || startsWith ts .identifier && ts[1]?.any fun t => t.kind = .openParen

mutual

/-- The block at the index `i` of a line of the tokens `whole`, and the index where it closes. -/
def blockAt (whole ts : List Token) (i : Nat) : Checked (List Statement × Nat) := do
  expectAt ts i .openBrace
  match ← matchingClose ts i with
  | none =>
    let opening ← tokenAt ts i
    throw (.of .unbalancedBraces opening.position)
  | some close =>
    let inside ← slice ts (i + 1) close
    let statements ← descend ⟨whole, 0⟩ ⟨inside, 0⟩ fun _ => blockOf inside
    return (statements, close)
termination_by (whole.length, 0)
decreasing_by exact .left _ _ (Spot.After.length_lt ‹_›)

def branchOf (whole ts : List Token) : Checked Statement := do
  let close ← closeOfParens ts
  let condition ← exprInParens ts close
  let (thenPart, thenClose) ← blockAt whole ts (close + 1)
  let first ← tokenAt ts 0
  match ts[thenClose + 1]? with
  | none => return .branch condition thenPart none first.position
  | some t =>
    if t.kind = .elseWord then
      let (elsePart, elseClose) ← blockAt whole ts (thenClose + 2)
      match ts[elseClose + 1]? with
      | none => return .branch condition thenPart (some elsePart) first.position
      | some extra => throw (.unexpected .semicolon extra.kind extra.position)
    else throw (.unexpected .elseWord t.kind t.position)
termination_by (whole.length, 1)

def statementOf (whole ts : List Token) : Checked Statement := do
  checkParentheses ts
  let first ← tokenAt ts 0
  if startsWith ts .declarator then
    if ts.any fun t => t.isOperator .equal then declarationOf ts else bareDeclarationOf ts
  else if startsWith ts .ifWord then branchOf whole ts
  else if callFollows ts then callOf ts
  else if startsWith ts .identifier then assignmentOf ts
  else throw (.of (.unrecognizedStatement first.kind) first.position)
termination_by (whole.length, 2)

def blockOf (ts : List Token) : Checked (List Statement) := do
  let (lines, fault) ← splitLines ts
  let statements ← lines.mapM fun l => statementOf ts l
  match fault with
  | some e => throw e
  | none => return statements
termination_by (ts.length, 3)

end

def parse (ts : List Token) : Checked (List Statement) := blockOf (significant ts)

def parseEachLine (ts : List Token) : Except Breach (List (Except SyntaxError Statement)) := do
  let (lines, fault) ← splitLines (significant ts)
  let answers ← lines.mapM fun l => (statementOf (significant ts) l).run
  return answers ++ fault.toList.map .error

/-! ### Agreement -/

section
variable {statement : String} {es : List Expected} {least : Nat} {ts : List Token}

theorem checkShape_of_lt (h : ts.length < max least es.length) :
    checkShape statement es least ts =
      (checkForm es ts).bind fun _ => .error (tooFew statement (max least es.length) ts) := by
  rw [checkShape, if_pos h]
  rfl

theorem checkShape_of_le (h : max least es.length ≤ ts.length) :
    checkShape statement es least ts = checkForm es ts := by
  rw [checkShape, if_neg (Nat.not_lt.mpr h)]
  cases checkForm es ts <;> rfl

end

theorem Agrees.ite {α β : Type} {R : α → β → Prop} {p : Prop} [Decidable p] {x x' : Checked α}
    {y y' : Except SyntaxError β} (h : p → Agrees R x y) (h' : ¬p → Agrees R x' y') :
    Agrees R (if p then x else x') (if p then y else y') := by
  split
  · exact h ‹p›
  · exact h' ‹¬p›

theorem Agrees.refused {α β : Type} {R : α → β → Prop} {c : Except SyntaxError Unit}
    {e : SyntaxError} {f : Unit → Checked α} :
    Agrees R (liftM (c.bind fun _ => .error e) >>= f) (c.bind fun _ => .error e) := by
  cases c <;> exact rfl

theorem bareDeclarationOf_agrees (ts : List Token) :
    Agrees Eq (bareDeclarationOf ts) (readBareDeclaration ts) := by
  unfold bareDeclarationOf readBareDeclaration
  rcases ts with _ | ⟨d, _ | ⟨name, _ | ⟨colon, _ | ⟨type, more⟩⟩⟩⟩
  iterate 4
    · rw [checkShape_of_lt (by simp)]
      exact .refused
  · rw [checkShape_of_le (by simp)]
    refine .answer fun _ _ => ?_
    cases more with
    | nil =>
      refine .lift (a := d) rfl ?_
      by_cases hconst : declaratorOf d = .const_
      · simp only [hconst, if_true]
        exact rfl
      · simp only [hconst, if_false]
        exact rfl
    | cons extra more => exact rfl

theorem declarationOf_agrees (ts : List Token) :
    Agrees Eq (declarationOf ts) (readDeclaration ts) := by
  unfold declarationOf readDeclaration
  rcases ts with _ | ⟨d, _ | ⟨name, _ | ⟨colon, _ | ⟨type, _ | ⟨equal, _ | ⟨v, vs⟩⟩⟩⟩⟩⟩
  iterate 6
    · rw [checkShape_of_lt (by simp)]
      exact .refused
  · rw [checkShape_of_le (by simp)]
    refine .answer fun _ _ => .lift (slice_length (by simp)) (.lift (a := equal) rfl ?_)
    refine (exprOf_agrees equal.position (v :: vs)).bind fun value value' _ hvalue => ?_
    rw [hvalue]
    exact rfl

theorem assignmentOf_agrees (ts : List Token) :
    Agrees Eq (assignmentOf ts) (readAssignment ts) := by
  unfold assignmentOf readAssignment
  rcases ts with _ | ⟨name, _ | ⟨equal, _ | ⟨v, vs⟩⟩⟩
  iterate 3
    · rw [checkShape_of_lt (by simp)]
      exact .refused
  · rw [checkShape_of_le (by simp)]
    refine .answer fun _ _ => .lift (a := name) rfl ?_
    refine .lift (slice_length (by simp)) (.lift (a := equal) rfl ?_)
    refine (exprOf_agrees equal.position (v :: vs)).bind fun value value' _ hvalue => ?_
    rw [hvalue]
    exact rfl

/-- The parentheses at the index 1 of a line close at an index. -/
def Encloses (l : Line) (close : Nat) (r : Position × List Token × List Token) : Prop :=
  ∃ o c, l.rest = o :: (r.2.1 ++ c :: r.2.2) ∧ r.1 = o.position ∧ close = 2 + r.2.1.length

theorem closeOfParens_agrees (l : Line) :
    Agrees (Encloses l) (closeOfParens l.tokens) (takeParens (endPosition l.tokens) l.rest) := by
  have hdrop : l.tokens.drop 1 = l.rest := rfl
  unfold closeOfParens takeParens
  cases hrest : l.rest with
  | nil =>
    rw [hrest] at hdrop
    rw [expectAt_of_nil hdrop]
    exact rfl
  | cons t more =>
    rw [hrest] at hdrop
    rw [expectAt_of_drop hdrop]
    by_cases ht : t.kind = .openParen
    · simp only [if_pos ht]
      refine .lift (a := (cutAtParen more).map fun r => 1 + 1 + r.1.length)
        (matchingClose_of_drop .paren hdrop ht) ?_
      cases hcut : cutAtParen more with
      | none => exact rfl
      | some r =>
        obtain ⟨inside, rest⟩ := r
        obtain ⟨-, c, -, rfl⟩ := eq_of_cutAtClose hcut
        exact ⟨t, c, hrest, rfl, rfl⟩
    · simp only [if_neg ht]
      exact rfl

section
variable {l : Line} {close : Nat} {r : Position × List Token × List Token} (h : Encloses l close r)
include h

theorem Encloses.drop_succ : l.tokens.drop (close + 1) = r.2.2 := by
  obtain ⟨o, c, hrest, -, rfl⟩ := h
  have htwo : l.tokens.drop 2 = r.2.1 ++ c :: r.2.2 := by rw [Line.tokens, hrest]; rfl
  exact (reached_behind htwo).2

theorem exprInParens_agrees : Agrees Eq (exprInParens l.tokens close) (readExpr r.1 r.2.1) := by
  obtain ⟨o, c, hrest, hopen, rfl⟩ := h
  have hone : l.tokens.drop 1 = o :: (r.2.1 ++ c :: r.2.2) := hrest
  rw [hopen]
  refine .lift (slice_of_drop (drop_succ_of_drop hone) (lt_length_of_drop hone)) ?_
  exact .lift (tokenAt_of_drop hone) (exprOf_agrees o.position r.2.1)

end

theorem callOf_agrees (l : Line) : Agrees Eq (callOf l.tokens) (readCall l) := by
  unfold callOf readCall
  refine .lift (a := l.first) rfl ?_
  cases l.first.value with
  | builtin f =>
    refine (closeOfParens_agrees l).bind fun close r _ hclose => ?_
    obtain ⟨p, inside, rest⟩ := r
    have hdrop := hclose.drop_succ
    cases rest with
    | nil =>
      simp only [List.getElem?_eq_none (List.drop_eq_nil_iff.mp hdrop)]
      refine (exprInParens_agrees hclose).bind fun e e' _ he => ?_
      rw [he]
      exact rfl
    | cons extra rest =>
      simp only [getElem?_of_drop hdrop]
      exact rfl
  | _ => exact rfl

@[simp] theorem startsWith_tokens (l : Line) (k : Kind) :
    startsWith l.tokens k = decide (l.first.kind = k) := rfl

@[simp] theorem callFollows_tokens (l : Line) : callFollows l.tokens = l.looksLikeCall := by
  obtain ⟨first, rest⟩ := l
  unfold callFollows Line.looksLikeCall
  simp only [startsWith_tokens]
  cases first.kind <;> cases rest <;> simp [Line.tokens]

theorem readStatement_eq_ite (l : Line) :
    readStatement l =
      (checkParentheses l.tokens).bind fun _ =>
      if l.first.kind = .declarator then
        if l.tokens.any fun t => t.isOperator .equal then readDeclaration l.tokens
        else readBareDeclaration l.tokens
      else if l.first.kind = .ifWord then readBranch l
      else if l.looksLikeCall then readCall l
      else if l.first.kind = .identifier then readAssignment l.tokens
      else .error (.of (.unrecognizedStatement l.first.kind) l.first.position) := by
  rw [readStatement_eq]
  cases l.first.kind <;> rfl

/-- The statements between the braces that `ts` begins with, and what comes after them. -/
def readBraced (stop : Position) (ts : List Token) :
    Except SyntaxError (List Statement × List Token) :=
  (takeBraces stop ts).bind fun b => (readBlock b.1).map fun statements => (statements, b.2)

theorem readBraced_bind {α : Type} (stop : Position) (ts : List Token)
    (f : List Statement → List Token → Except SyntaxError α) :
    (readBraced stop ts).bind (fun r => f r.1 r.2) =
      (takeBraces stop ts).bind fun b => (readBlock b.1).bind fun statements => f statements b.2 := by
  unfold readBraced
  cases takeBraces stop ts with
  | error e => rfl
  | ok b =>
    simp only [bind_ok]
    cases readBlock b.1 <;> rfl

mutual

theorem blockAt_agrees {whole ts : List Token} (hle : ts.length ≤ whole.length) (i : Nat) :
    Agrees (fun x y => x.1 = y.1 ∧ ts.drop (x.2 + 1) = y.2) (blockAt whole ts i)
      (readBraced (endPosition ts) (ts.drop i)) := by
  rw [blockAt, readBraced, takeBraces.eq_def]
  cases hrest : ts.drop i with
  | nil =>
    rw [expectAt_of_nil hrest]
    exact rfl
  | cons t more =>
    rw [expectAt_of_drop hrest]
    by_cases ht : t.kind = .openBrace
    · simp only [if_pos ht]
      refine .lift (a := (cutAtBrace more).map fun r => i + 1 + r.1.length)
        (matchingClose_of_drop .brace hrest ht) ?_
      cases hcut : cutAtBrace more with
      | none =>
        refine .lift (tokenAt_of_drop hrest) ?_
        exact rfl
      | some r =>
        obtain ⟨inside, rest⟩ := r
        obtain ⟨-, c, -, rfl⟩ := eq_of_cutAtClose hcut
        have hmore := drop_succ_of_drop hrest
        have hlt := lt_length_of_drop hrest
        have hlen := lt_length_of_enclosed hmore
        refine .lift (slice_of_drop hmore hlt) ?_
        rw [descend_eq (.inl (by simp only; omega))]
        refine (blockOf_agrees inside).map fun ss ss' hss => ⟨hss, ?_⟩
        exact (reached_behind hmore).2
    · simp only [if_neg ht]
      exact rfl
termination_by (whole.length, 0)
decreasing_by exact .left _ _ (by omega)

theorem branchOf_agrees {whole : List Token} (l : Line) (hle : l.tokens.length ≤ whole.length) :
    Agrees Eq (branchOf whole l.tokens) (readBranch l) := by
  rw [branchOf, readBranch_eq]
  refine (closeOfParens_agrees l).bind fun close r _ hclose => ?_
  refine (exprInParens_agrees hclose).bind fun condition condition' _ hcondition => ?_
  subst hcondition
  have block := blockAt_agrees hle
  rw [← readBraced_bind, ← hclose.drop_succ]
  refine (block (close + 1)).bind fun x y _ hreached => ?_
  obtain ⟨thenPart, thenClose⟩ := x
  obtain ⟨thenPart', rest⟩ := y
  obtain ⟨rfl, hdrop⟩ := hreached
  refine .lift (a := l.first) rfl ?_
  cases rest with
  | nil =>
    simp only [List.getElem?_eq_none (List.drop_eq_nil_iff.mp hdrop)]
    exact rfl
  | cons t rest =>
    simp only [getElem?_of_drop hdrop, readElse]
    by_cases ht : t.kind = .elseWord
    · simp only [ht, if_true]
      have ending := readBraced_bind (endPosition l.tokens) rest fun elsePart rest' => match rest' with
        | [] => .ok (Statement.branch condition thenPart (some elsePart) l.first.position)
        | extra :: _ => .error (.unexpected .semicolon extra.kind extra.position)
      refine Eq.subst ending ?_
      rw [← drop_succ_of_drop hdrop]
      refine (block (thenClose + 2)).bind fun x y _ hreached => ?_
      obtain ⟨elsePart, elseClose⟩ := x
      obtain ⟨elsePart', rest'⟩ := y
      obtain ⟨rfl, hdrop'⟩ := hreached
      cases rest' with
      | nil =>
        simp only [List.getElem?_eq_none (List.drop_eq_nil_iff.mp hdrop')]
        exact rfl
      | cons extra rest' =>
        simp only [getElem?_of_drop hdrop']
        exact rfl
    · simp only [ht, if_false]
      exact rfl
termination_by (whole.length, 1)

theorem statementOf_agrees {whole : List Token} (l : Line) (hle : l.tokens.length ≤ whole.length) :
    Agrees Eq (statementOf whole l.tokens) (readStatement l) := by
  rw [statementOf, readStatement_eq_ite]
  refine .answer fun _ _ => .lift (a := l.first) rfl ?_
  simp only [startsWith_tokens, callFollows_tokens, decide_eq_true_eq]
  refine .ite (fun _ => .ite (fun _ => declarationOf_agrees _) fun _ => bareDeclarationOf_agrees _)
    fun _ => ?_
  refine .ite (fun _ => branchOf_agrees l hle) fun _ => ?_
  refine .ite (fun _ => callOf_agrees l) fun _ => ?_
  refine .ite (fun _ => assignmentOf_agrees _) fun _ => ?_
  exact rfl
termination_by (whole.length, 2)

theorem blockOf_agrees (ts : List Token) : Agrees Eq (blockOf ts) (readBlock ts) := by
  rw [blockOf, readBlock_eq]
  refine .lift (splitLines_eq ts) ?_
  have lines : ∀ l ∈ (cutLines ts).lines, Agrees Eq (statementOf ts l.tokens) (readStatement l) :=
    fun l hl => statementOf_agrees l (cutLines_length hl)
  refine (Agrees.mapM lines).bind fun ss ss' _ hss => ?_
  subst hss
  cases hf : (cutLines ts).fault with
  | none => exact rfl
  | some e => exact rfl
termination_by (ts.length, 3)

end

theorem mapM_statementOf {ts : List Token} {ls : List Line}
    (h : ∀ l ∈ ls, l.tokens.length ≤ ts.length) :
    (ls.map Line.tokens).mapM (fun l => (statementOf ts l).run) = .ok (ls.map readStatement) := by
  induction ls with
  | nil => rfl
  | cons l ls ih =>
    have hl : (statementOf ts l.tokens).run = .ok (readStatement l) :=
      (statementOf_agrees l (h l (by simp))).eq_ok
    rw [List.map_cons, List.mapM_cons, hl, ih fun l hl => h l (by simp [hl])]
    rfl

end Guarded

/-- For every list of tokens whatever, each index and each range that is asked for lies in its
list, no count of open brackets falls below zero, each recursive call is about a shorter list or a
later index, and the outcome is a program or an error. -/
theorem parse_guarded (ts : List Token) :
    (Guarded.parse ts).run = .ok (parse ts) ∧
      Guarded.parseEachLine ts = .ok (parseEachLine ts) := by
  refine ⟨(Guarded.blockOf_agrees (significant ts)).eq_ok, ?_⟩
  have hlines := Guarded.mapM_statementOf
    fun l (hl : l ∈ (cutLines (significant ts)).lines) => cutLines_length hl
  rw [Guarded.parseEachLine, Guarded.splitLines_eq, parseEachLine]
  simp only [ok_bind, Cut.plain, hlines]
  rfl

end LetScript
