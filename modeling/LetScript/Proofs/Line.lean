import LetScript.Program.Statement
import LetScript.Proofs.Bracket
import LetScript.Proofs.Reader
import LetScript.Proofs.Token

/-! Statement lines: where they end, what stands between their brackets, and
how the reading of a line proceeds. -/
namespace LetScript

/-- Braces and semicolons divide lines. -/
def Kind.isDivider : Kind → Bool
  | .openBrace | .closeBrace | .semicolon => true
  | _ => false

/-- What the next token does to the line so far: it joins the line, it is a semicolon
without a line, it completes the line, or it is at fault. -/
inductive CutStep where
  | join (depth : Nat)
  | skip
  | complete (l : Line)
  | fault (e : SyntaxError)

/-- The step that a token makes, given whether `else` comes next. -/
def cutStep (depth : Nat) (current : List Token) (t : Token) (beforeElse : Bool) : CutStep :=
  match t.kind with
  | .openBrace => .join (depth + 1)
  | .closeBrace =>
    match depth, current with
    | 0, _ => .fault (.of .unbalancedBraces t.position)
    | 1, f :: r =>
      if f.kind = .ifWord ∧ beforeElse = false then .complete ⟨f, r ++ [t]⟩ else .join 0
    | d + 1, _ => .join d
  | .semicolon =>
    match depth, current with
    | 0, [] => .skip
    | 0, f :: r => .complete ⟨f, r⟩
    | d + 1, _ => .join (d + 1)
  | _ => .join depth

theorem cutFrom_cons (d : Nat) (current : List Token) (t : Token) (ts : List Token) :
    cutFrom d current (t :: ts) =
      match cutStep d current t (elseFollows ts) with
      | .join d' => cutFrom d' (current ++ [t]) ts
      | .skip => cutFrom 0 [] ts
      | .complete l => (cutFrom 0 [] ts).cons l
      | .fault e => ⟨[], some e⟩ := by
  cases hk : t.kind with
  | closeBrace =>
    simp only [cutFrom, cutStep, hk]
    rcases d with _ | _ | d
    · rfl
    · cases current with
      | nil => rfl
      | cons f r =>
        by_cases hif : f.kind = .ifWord ∧ elseFollows ts = false <;> simp [hif]
    · rfl
  | semicolon =>
    simp only [cutFrom, cutStep, hk]
    split <;> rfl
  | _ => simp only [cutFrom, cutStep, hk]

/-- Only a closing brace looks ahead. -/
theorem cutStep_of_kind_ne {t : Token} (ht : t.kind ≠ .closeBrace) (d : Nat) (current : List Token)
    (b b' : Bool) : cutStep d current t b = cutStep d current t b' := by
  unfold cutStep
  split
  · rfl
  · rename_i hk
    exact absurd hk ht
  · rfl
  · rfl

/-- A token that joins the line changes the depth if it is a brace. A line is completed by
the semicolon after it or by the last brace of its own, and a closing brace is at fault if
none is open. -/
theorem cutStep_spec (d : Nat) (current : List Token) (t : Token) (b : Bool) :
    match cutStep d current t b with
    | .join d' => depthAfter .openBrace .closeBrace d [t] = some d'
    | .skip => t.kind = .semicolon ∧ current = []
    | .complete l => t.kind = .semicolon ∧ current = l.tokens ∨
        l.first.kind = .ifWord ∧ current ++ [t] = l.tokens
    | .fault e => t.kind = .closeBrace ∧ d = 0 ∧ e = .of .unbalancedBraces t.position := by
  cases hk : t.kind with
  | closeBrace =>
    simp only [cutStep, hk]
    rcases d with _ | _ | d
    · exact ⟨trivial, rfl, rfl⟩
    · cases current with
      | nil => simp [depthAfter, hk]
      | cons f r =>
        by_cases hif : f.kind = .ifWord ∧ b = false
        · simp [hif, Line.tokens]
        · simp [hif, depthAfter, hk]
    · simp [depthAfter, hk]
  | semicolon =>
    simp only [cutStep, hk]
    cases d with
    | zero =>
      cases current with
      | nil => exact ⟨trivial, rfl⟩
      | cons f r => exact .inl ⟨trivial, rfl⟩
    | succ d => simp [depthAfter, hk]
  | _ => simp [cutStep, hk, depthAfter]

theorem cutFrom_plain {ls : List Token} (h : ∀ t ∈ ls, t.kind.isDivider = false) (d : Nat)
    (current rest : List Token) :
    cutFrom d current (ls ++ rest) = cutFrom d (current ++ ls) rest := by
  induction ls generalizing current with
  | nil => simp
  | cons t ls ih =>
    have ht := h t (by simp)
    have hstep :
        cutFrom d current (t :: (ls ++ rest)) = cutFrom d (current ++ [t]) (ls ++ rest) := by
      cases hk : t.kind with
      | openBrace => simp [hk, Kind.isDivider] at ht
      | closeBrace => simp [hk, Kind.isDivider] at ht
      | semicolon => simp [hk, Kind.isDivider] at ht
      | _ => simp [cutFrom, hk]
    rw [List.cons_append, hstep, ih fun u hu => h u (by simp [hu])]
    simp

/-- Inside braces nothing ends a line. -/
theorem cutFrom_inside {d e : Nat} {as : List Token}
    (h : depthAfter .openBrace .closeBrace d as = some e) (current rest : List Token) :
    cutFrom (d + 1) current (as ++ rest) = cutFrom (e + 1) (current ++ as) rest := by
  induction as generalizing d current with
  | nil =>
    cases h
    simp
  | cons t as ih =>
    have hnext {d' : Nat} (hd : depthAfter .openBrace .closeBrace d' as = some e)
        (hstep : cutFrom (d + 1) current (t :: (as ++ rest)) =
          cutFrom (d' + 1) (current ++ [t]) (as ++ rest)) :
        cutFrom (d + 1) current (t :: as ++ rest) = cutFrom (e + 1) (current ++ t :: as) rest := by
      rw [List.cons_append, hstep, ih hd]
      simp
    by_cases ho : t.kind = .openBrace
    · rw [depthAfter_open ho] at h
      exact hnext h (by simp [cutFrom, ho])
    · by_cases hc : t.kind = .closeBrace
      · cases d with
        | zero => simp [depthAfter, hc] at h
        | succ d =>
          rw [depthAfter_close ho hc] at h
          exact hnext h (by simp [cutFrom, hc])
      · rw [depthAfter_other ho hc] at h
        refine hnext h ?_
        cases hk : t.kind <;> simp_all [cutFrom]

/-- The brace that closes a branch ends the line, unless `else` comes next. -/
theorem cutFrom_branch {ob cb f : Token} {as : List Token} (hob : ob.kind = .openBrace)
    (hcb : cb.kind = .closeBrace) (hf : f.kind = .ifWord)
    (hb : Balanced .openBrace .closeBrace as) (r rest : List Token) :
    cutFrom 0 (f :: r) (ob :: (as ++ cb :: rest)) =
      if elseFollows rest then cutFrom 0 (f :: (r ++ ob :: (as ++ [cb]))) rest
      else (cutFrom 0 [] rest).cons ⟨f, r ++ ob :: (as ++ [cb])⟩ := by
  have hin := cutFrom_inside hb (f :: r ++ [ob]) (cb :: rest)
  have hopen : cutFrom 0 (f :: r) (ob :: (as ++ cb :: rest)) =
      cutFrom 1 (f :: r ++ [ob]) (as ++ cb :: rest) := by simp [cutFrom, hob]
  rw [hopen, hin]
  cases he : elseFollows rest <;> simp [cutFrom, hcb, hf, he]

/-- How the lines of a list of tokens lie in it when nothing is wrong. -/
inductive CutsInto : List Token → List Line → Prop
  | nil : CutsInto [] []
  | empty {t : Token} {ts : List Token} {ls : List Line} (ht : t.kind = .semicolon)
      (h : CutsInto ts ls) : CutsInto (t :: ts) ls
  | ended {l : Line} {t : Token} {ts : List Token} {ls : List Line} (ht : t.kind = .semicolon)
      (h : CutsInto ts ls) : CutsInto (l.tokens ++ t :: ts) (l :: ls)
  | closed {l : Line} {ts : List Token} {ls : List Line} (hl : l.first.kind = .ifWord)
      (h : CutsInto ts ls) : CutsInto (l.tokens ++ ts) (l :: ls)

/-- What can be left behind the last complete line, and the fault that it makes: a line
without its semicolon, a line with an open brace, or a brace that closes nothing. -/
inductive Leaves : List Token → Option SyntaxError → Prop
  | nothing : Leaves [] none
  | unterminated {f : Token} {r : List Token} (hb : Balanced .openBrace .closeBrace (f :: r)) :
      Leaves (f :: r) (some (.of .missingTerminator (endPosition (f :: r))))
  | unclosed {f : Token} {r : List Token} {d : Nat}
      (hd : depthAfter .openBrace .closeBrace 0 (f :: r) = some (d + 1)) :
      Leaves (f :: r) (some (.of .unbalancedBraces f.position))
  | excess {c : Token} {r ts : List Token} (hb : Balanced .openBrace .closeBrace r)
      (hc : c.kind = .closeBrace) : Leaves (r ++ c :: ts) (some (.of .unbalancedBraces c.position))

/-- At the end of the tokens the line so far is left. -/
theorem cutFrom_end {d : Nat} {current : List Token}
    (hd : depthAfter .openBrace .closeBrace 0 current = some d) :
    (cutFrom d current []).lines = [] ∧ Leaves current (cutFrom d current []).fault := by
  cases current with
  | nil => exact ⟨rfl, .nothing⟩
  | cons f r =>
    cases d with
    | zero => exact ⟨rfl, .unterminated hd⟩
    | succ d => exact ⟨rfl, .unclosed hd⟩

/-- Tokens are cut into complete lines and what is left behind them. -/
theorem cutFrom_divides {d : Nat} {current : List Token}
    (hd : depthAfter .openBrace .closeBrace 0 current = some d) (ts : List Token) :
    ∃ front rest, current ++ ts = front ++ rest ∧ CutsInto front (cutFrom d current ts).lines ∧
      Leaves rest (cutFrom d current ts).fault := by
  induction ts generalizing d current with
  | nil =>
    obtain ⟨hlines, hleaves⟩ := cutFrom_end hd
    rw [hlines]
    exact ⟨[], current, by simp, .nil, hleaves⟩
  | cons t ts ih =>
    have hspec := cutStep_spec d current t (elseFollows ts)
    rw [cutFrom_cons]
    cases hs : cutStep d current t (elseFollows ts) with
    | join d' =>
      rw [hs] at hspec
      have hjoin : depthAfter .openBrace .closeBrace 0 (current ++ [t]) = some d' := by
        rw [depthAfter_append, hd]
        exact hspec
      simpa using ih hjoin
    | skip =>
      rw [hs] at hspec
      obtain ⟨ht, rfl⟩ := hspec
      obtain ⟨front, rest, hts, hfront, hrest⟩ := @ih 0 [] rfl
      exact ⟨t :: front, rest, by simpa using hts, .empty ht hfront, hrest⟩
    | complete l =>
      rw [hs] at hspec
      obtain ⟨front, rest, hts, hfront, hrest⟩ := @ih 0 [] rfl
      rw [List.nil_append] at hts
      subst hts
      rcases hspec with ⟨ht, rfl⟩ | ⟨hif, htokens⟩
      · exact ⟨l.tokens ++ t :: front, rest, by simp, .ended ht hfront, hrest⟩
      · exact ⟨l.tokens ++ front, rest, by simp [← htokens], .closed hif hfront, hrest⟩
    | fault e =>
      rw [hs] at hspec
      obtain ⟨hk, rfl, rfl⟩ := hspec
      exact ⟨[], current ++ t :: ts, rfl, .nil, .excess hd hk⟩

theorem cutLines_divides (ts : List Token) :
    ∃ front rest, ts = front ++ rest ∧ CutsInto front (cutLines ts).lines ∧
      Leaves rest (cutLines ts).fault :=
  @cutFrom_divides 0 [] rfl ts

/-- Without a fault the lines make up all of the tokens. -/
theorem cutsInto_cutLines {ts : List Token} (h : (cutLines ts).fault = none) :
    CutsInto ts (cutLines ts).lines := by
  obtain ⟨front, rest, rfl, hfront, hrest⟩ := cutLines_divides ts
  rw [h] at hrest
  cases hrest
  simpa using hfront

theorem CutsInto.mem {ts : List Token} {ls : List Line} (h : CutsInto ts ls) {l : Line}
    (hl : l ∈ ls) {t : Token} (ht : t ∈ l.tokens) : t ∈ ts := by
  induction h with
  | nil => simp at hl
  | empty _ _ ih => simp [ih hl]
  | ended _ _ ih =>
    rcases List.mem_cons.mp hl with rfl | hl
    · simp [ht]
    · simp [ih hl]
  | closed _ _ ih =>
    rcases List.mem_cons.mp hl with rfl | hl
    · simp [ht]
    · simp [ih hl]

@[simp] theorem checkForm_kind (k : Kind) (es : List Expected) (t : Token) (ts : List Token) :
    checkForm (.kind k :: es) (t :: ts) = .ok () ↔ t.kind = k ∧ checkForm es ts = .ok () := by
  by_cases h : t.kind = k <;> simp [checkForm, h]

@[simp] theorem checkForm_operator (o : Operator) (es : List Expected) (t : Token)
    (ts : List Token) :
    checkForm (.operator o :: es) (t :: ts) = .ok () ↔
      t.isOperator o = true ∧ checkForm es ts = .ok () := by
  by_cases h : t.isOperator o <;> simp [checkForm, h]

theorem takeParens_enclosed {o c : Token} {cs : List Token} (ho : o.kind = .openParen)
    (hc : c.kind = .closeParen) (hb : Balanced .openParen .closeParen cs) (stop : Position)
    (rest : List Token) :
    takeParens stop (o :: (cs ++ c :: rest)) = .ok (o.position, cs, rest) := by
  have hcut : cutAtParen (cs ++ c :: rest) = some (cs, rest) :=
    hb.cutAtClose (by decide) hc rest
  simp [takeParens, ho, hcut]

theorem takeBraces_enclosed {o c : Token} {as : List Token} (ho : o.kind = .openBrace)
    (hc : c.kind = .closeBrace) (hb : Balanced .openBrace .closeBrace as) (stop : Position)
    (rest : List Token) : takeBraces stop (o :: (as ++ c :: rest)) = .ok (as, rest) := by
  have hcut : cutAtBrace (as ++ c :: rest) = some (as, rest) :=
    hb.cutAtClose (by decide) hc rest
  simp [takeBraces, ho, hcut]

theorem takeParens_sound {stop p : Position} {ts inside rest : List Token}
    (hc : ∀ t ∈ ts, t.Consistent) (h : takeParens stop ts = .ok (p, inside, rest)) :
    ∃ o c, o.IsRaw .openParen ∧ c.IsRaw .closeParen ∧ ts = o :: (inside ++ [c]) ++ rest := by
  unfold takeParens at h
  split at h
  · simp at h
  · rename_i t more
    split at h
    · rename_i ht
      split at h
      · simp at h
      · rename_i hcut
        cases h
        obtain ⟨-, c, hk, rfl⟩ := eq_of_cutAtClose hcut
        exact ⟨t, c, (hc t (by simp)).isRaw ht (by decide), (hc c (by simp)).isRaw hk (by decide),
          by simp⟩
    · simp at h

theorem takeBraces_sound {stop : Position} {ts inside rest : List Token}
    (hc : ∀ t ∈ ts, t.Consistent) (h : takeBraces stop ts = .ok (inside, rest)) :
    ∃ o c, o.IsRaw .openBrace ∧ c.IsRaw .closeBrace ∧ ts = o :: (inside ++ [c]) ++ rest := by
  unfold takeBraces at h
  split at h
  · simp at h
  · rename_i t more
    split at h
    · rename_i ht
      split at h
      · simp at h
      · rename_i hcut
        cases h
        obtain ⟨-, c, hk, rfl⟩ := eq_of_cutAtClose hcut
        exact ⟨t, c, (hc t (by simp)).isRaw ht (by decide), (hc c (by simp)).isRaw hk (by decide),
          by simp⟩
    · simp at h

/-- What may come after the first branch of a conditional: nothing, or the
second branch. -/
def readElse (stop p : Position) (condition : Expr) (thenPart : List Statement) :
    List Token → Except SyntaxError Statement
  | [] => .ok (.branch condition thenPart none p)
  | t :: rest =>
    if t.kind = .elseWord then
      (takeBraces stop rest).bind fun r =>
      (readBlock r.1).bind fun elsePart =>
      match r.2 with
      | [] => .ok (.branch condition thenPart (some elsePart) p)
      | extra :: _ => .error (.unexpected .semicolon extra.kind extra.position)
    else .error (.unexpected .elseWord t.kind t.position)

theorem readBranch_eq (l : Line) :
    readBranch l =
      (takeParens (endPosition l.tokens) l.rest).bind fun r =>
      (readExpr r.1 r.2.1).bind fun condition =>
      (takeBraces (endPosition l.tokens) r.2.2).bind fun b =>
      (readBlock b.1).bind fun thenPart =>
      readElse (endPosition l.tokens) l.first.position condition thenPart b.2 := by
  rw [readBranch]
  split
  · rename_i h
    rw [h]
    rfl
  · rename_i p inside rest h
    rw [h]
    simp only [Except.bind]
    cases readExpr p inside with
    | error e => rfl
    | ok condition =>
      simp only
      split
      · rename_i hb
        simp only [hb]
      · rename_i thenTokens rest' hb
        simp only [hb]
        cases readBlock thenTokens with
        | error e => rfl
        | ok thenPart =>
          cases rest' with
          | nil => rfl
          | cons t more =>
            simp only [readElse]
            by_cases ht : t.kind = .elseWord
            · simp only [ht, if_true]
              split
              · rename_i hb'
                rw [hb']
                rfl
              · rename_i elseTokens rest'' hb'
                simp only [hb', Except.bind]
                cases readBlock elseTokens with
                | error e => rfl
                | ok elsePart => cases rest'' <;> rfl
            · simp only [ht, if_false]

theorem readStatement_eq (l : Line) :
    readStatement l =
      (checkParentheses l.tokens).bind fun _ =>
      match l.first.kind with
      | .declarator =>
        if l.tokens.any fun t => t.isOperator .equal then readDeclaration l.tokens
        else readBareDeclaration l.tokens
      | .ifWord => readBranch l
      | k =>
        if l.looksLikeCall then readCall l
        else if k = .identifier then readAssignment l.tokens
        else .error (.of (.unrecognizedStatement k) l.first.position) := by
  rw [readStatement]
  rfl

theorem readStatement_of_balanced {f : Token} {r : List Token}
    (hb : Balanced .openParen .closeParen (f :: r)) :
    readStatement ⟨f, r⟩ =
      match f.kind with
      | .declarator =>
        if (f :: r).any fun t => t.isOperator .equal then readDeclaration (f :: r)
        else readBareDeclaration (f :: r)
      | .ifWord => readBranch ⟨f, r⟩
      | k =>
        if (Line.mk f r).looksLikeCall then readCall ⟨f, r⟩
        else if k = .identifier then readAssignment (f :: r)
        else .error (.of (.unrecognizedStatement k) f.position) := by
  rw [readStatement_eq, Line.tokens,
    (checkParentheses_eq_ok_iff _).mpr hb]
  rfl

/-- A block is read if its tokens are cut without a fault and every line is read. -/
theorem readBlock_eq_ok {ts : List Token} {ss : List Statement} (h : readBlock ts = .ok ss) :
    (cutLines ts).lines.mapM readStatement = .ok ss ∧ (cutLines ts).fault = none := by
  rw [readBlock_eq] at h
  obtain ⟨xs, hxs, h⟩ := bind_eq_ok.mp h
  cases hf : (cutLines ts).fault with
  | some e => simp [hf] at h
  | none =>
    simp only [hf, Except.ok.injEq] at h
    exact ⟨h ▸ hxs, rfl⟩

end LetScript
