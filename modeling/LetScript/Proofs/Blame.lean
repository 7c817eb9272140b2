import LetScript.Proofs.Line

/-! Where errors point. Whatever is wrong with a statement, the error stands at one of its
tokens, and at the one that the fault is about. -/
namespace LetScript

/-- Behind an expression comes a closing parenthesis or nothing. -/
def EndsExpression (back : List Token) : Prop := ∀ u ∈ back.head?, u.kind = .closeParen

/-- What stands before the equals sign of an assignment and of a declaration. -/
def equalHeads : List (List Kind) :=
  [[.identifier], [.declarator, .identifier, .colon, .typeName]]

/-- The tokens in front ask for a token of a kind. -/
inductive Asks : List Token → Kind → Prop
  | head {front : List Token} {k : Kind} {ks : List Kind} (hks : ks ∈ equalHeads)
      (h : front.map Token.kind ++ [k] <+: ks) : Asks front k
  | function : Asks [] .builtin
  | argument {front : List Token} {t : Token} {f : Builtin} (ht : t.value = .builtin f) :
      Asks (front ++ [t]) .openParen
  | condition {t : Token} (ht : t.kind = .ifWord) : Asks [t] .openParen
  | closing {front inside : List Token} {o : Token} {d : Nat} (ho : o.kind = .openParen)
      (hd : depthAfter .openParen .closeParen 0 inside = some d) :
      Asks (front ++ o :: inside) .closeParen
  | block {front : List Token} {t : Token} (ht : t.kind = .closeParen ∨ t.kind = .elseWord) :
      Asks (front ++ [t]) .openBrace
  | otherwise {front : List Token} {t : Token} (ht : t.kind = .closeBrace) :
      Asks (front ++ [t]) .elseWord
  | ending {front : List Token} {t : Token} (ht : t.kind = .closeParen ∨ t.kind = .closeBrace) :
      Asks (front ++ [t]) .semicolon

def Value.isLiteral : Value → Bool
  | .number _ | .string _ | .boolean _ => true
  | _ => false

/-- Whether an operand can begin with a token. Its value decides before its kind does. -/
def Token.beginsOperand (t : Token) : Bool :=
  match t.value with
  | .number _ | .string _ | .boolean _ => true
  | .operator .sum | .operator .subtract | .builtin .readInput | .builtin .readEnv => true
  | _ => t.kind = .identifier || t.kind = .openParen

/-- The tokens in front end where an operand has to follow. -/
def WantsOperand (front : List Token) : Prop :=
  ∃ before u, front = before ++ [u] ∧ ((∃ o, u.value = .operator o) ∨ u.kind = .openParen)

/-- The tokens in front end with an operand. -/
def HasOperand (front : List Token) : Prop :=
  ∃ before u, front = before ++ [u] ∧
    (u.value.isLiteral ∨ u.kind = .identifier ∨ u.kind = .closeParen)

/-- Whether a fault of a statement is about the token between `front` and `back`. What is missing
is reported at the last token before it, where the end of a line counts as a semicolon. -/
def SyntaxFault.Concerns (front : List Token) (t : Token) (back : List Token) :
    SyntaxFault → Prop
  | unexpectedToken k found =>
    t.kind = found ∧ Asks front k ∨
      found = .semicolon ∧ EndsExpression back ∧ Asks (front ++ [t]) k
  | tooFewTokens _ least found => back = [] ∧ front.length + 1 = found ∧ found < least
  | missingOperator o => t.isOperator o = false ∧ front.map Token.kind ∈ equalHeads
  | unbalancedParentheses opened closed =>
    countKind .openParen (front ++ t :: back) = opened ∧
      countKind .closeParen (front ++ t :: back) = closed ∧
      (t.kind = .closeParen ∧ Balanced .openParen .closeParen front ∨
        front = [] ∧ ∃ d, depthAfter .openParen .closeParen 0 (t :: back) = some (d + 1))
  | unbalancedBraces =>
    t.kind = .closeBrace ∧ Balanced .openBrace .closeBrace front ∨
      (front = [] ∨ t.kind = .openBrace) ∧
        ∃ d, depthAfter .openBrace .closeBrace 0 (t :: back) = some (d + 1)
  | emptyExpression =>
    t.kind = .openParen ∧ (∃ c ∈ back.head?, c.kind = .closeParen) ∨
      t.infixPower?.isSome ∧ EndsExpression back
  | invalidExpression found =>
    t.kind = found ∧ (WantsOperand front ∧ t.beginsOperand = false ∨
      HasOperand front ∧ t.infixPower? = none)
  | uninitializedConstant name =>
    front = [] ∧ t.kind = .declarator ∧ declaratorOf t = .const_ ∧
      ∃ u ∈ back.head?, u.nameText = name
  | missingTerminator => back = []
  | unrecognizedStatement found => front = [] ∧ t.kind = found

/-- The error stands at the token of a statement that its fault is about. -/
def SyntaxError.Fits (e : SyntaxError) (us : List Token) : Prop :=
  ∃ front t back, us = front ++ t :: back ∧ e.position = t.position ∧
    e.fault.Concerns front t back

mutual

/-- A statement as a whole, and the statements in the blocks between its braces. -/
inductive Part : List Token → List Token → Prop
  | whole (us : List Token) : Part us us
  | inner {us vs front inside back : List Token} {o c : Token}
      (hus : us = front ++ o :: (inside ++ c :: back)) (ho : o.kind = .openBrace)
      (hc : c.kind = .closeBrace) (hb : Balanced .openBrace .closeBrace inside)
      (h : Segment inside vs) : Part us vs

/-- The statements of a block with their parts, and what is left behind the last complete one. -/
inductive Segment : List Token → List Token → Prop
  | line {ts vs : List Token} {l : Line} (hl : l ∈ (cutLines ts).lines) (h : Part l.tokens vs) :
      Segment ts vs
  | rest {ts front rest : List Token} (hts : ts = front ++ rest)
      (hfront : CutsInto front (cutLines ts).lines) (hrest : Leaves rest (cutLines ts).fault)
      (hne : rest ≠ []) : Segment ts rest

end

/-- The error fits one of the statements that a list of tokens is related to. -/
def SyntaxError.Blames (e : SyntaxError) (related : List Token → List Token → Prop)
    (us : List Token) : Prop :=
  ∃ vs, related us vs ∧ vs ⊆ us ∧ e.Fits vs

theorem SyntaxError.Blames.exists_mem {e : SyntaxError} {us : List Token}
    {related : List Token → List Token → Prop} (h : e.Blames related us) :
    ∃ t ∈ us, e.position = t.position := by
  obtain ⟨vs, -, hsub, front, t, back, rfl, hp, -⟩ := h
  exact ⟨t, hsub (by simp), hp⟩

theorem SyntaxError.Fits.blames {e : SyntaxError} {us : List Token} (h : e.Fits us) :
    e.Blames Part us :=
  ⟨us, .whole us, List.Subset.refl us, h⟩

/-- A block between the braces of a statement is part of it. -/
theorem SyntaxError.Blames.inner {e : SyntaxError} {us front inside back : List Token}
    {o c : Token} (h : e.Blames Segment inside) (hus : us = front ++ o :: (inside ++ c :: back))
    (ho : o.kind = .openBrace) (hc : c.kind = .closeBrace)
    (hb : Balanced .openBrace .closeBrace inside) : e.Blames Part us := by
  obtain ⟨vs, hvs, hsub, he⟩ := h
  refine ⟨vs, .inner hus ho hc hb hvs, List.Subset.trans hsub fun t ht => ?_, he⟩
  simp [hus, ht]

theorem SyntaxError.Blames.line {e : SyntaxError} {ts : List Token} {l : Line}
    (h : e.Blames Part l.tokens) (hl : l ∈ (cutLines ts).lines) : e.Blames Segment ts := by
  obtain ⟨vs, hvs, hsub, he⟩ := h
  obtain ⟨front, rest, hts, hfront, -⟩ := cutLines_divides ts
  refine ⟨vs, .line hl hvs, List.Subset.trans hsub fun t ht => ?_, he⟩
  rw [hts]
  exact List.mem_append_left _ (hfront.mem hl ht)

/-- A result is as wanted, or else its error is. -/
def Confined {α : Type} (B : SyntaxError → Prop) (P : α → Prop) : Except SyntaxError α → Prop
  | .ok a => P a
  | .error e => B e

namespace Confined

variable {α β : Type} {B : SyntaxError → Prop} {P : α → Prop} {Q : β → Prop}
  {x : Except SyntaxError α}

theorem of_error (h : Confined B P x) {e : SyntaxError} (he : x = .error e) : B e := by
  subst he
  exact h

theorem imp {B' : SyntaxError → Prop} (h : Confined B P x) (hB : ∀ e, B e → B' e) :
    Confined B' P x := by
  cases x with
  | error e => exact hB e h
  | ok a => exact h

theorem bind (hx : Confined B P x) {f : α → Except SyntaxError β}
    (hf : ∀ a, x = .ok a → P a → Confined B Q (f a)) : Confined B Q (x.bind f) := by
  cases x with
  | error e => exact hx
  | ok a => exact hf a rfl hx

theorem map (hx : Confined B P x) {f : α → β} (hf : ∀ a, P a → Q (f a)) :
    Confined B Q (x.map f) := by
  cases x with
  | error e => exact hx
  | ok a => exact hf a hx

theorem blames {us : List Token} (h : Confined (·.Fits us) P x) :
    Confined (·.Blames Part us) P x :=
  h.imp fun _ he => he.blames

theorem mapM {f : α → Except SyntaxError β} {as : List α}
    (h : ∀ a ∈ as, Confined B (fun _ => True) (f a)) :
    Confined B (fun _ => True) (as.mapM f) := by
  induction as with
  | nil => trivial
  | cons a as ih =>
    rw [List.mapM_cons]
    have hrest := ih fun b hb => h b (by simp [hb])
    exact (h a (by simp)).bind fun b _ _ => hrest.bind fun bs _ _ => trivial

end Confined

/-! ### Expressions -/

theorem exists_getLast {ts : List Token} (hne : ts ≠ []) :
    ∃ front t, ts = front ++ [t] ∧ endPosition ts = t.position := by
  refine ⟨ts.dropLast, ts.getLast hne, (List.dropLast_concat_getLast hne).symm, ?_⟩
  rw [endPosition, List.getLast?_eq_some_getLast hne]

/-- What is still to be read of an expression in a statement, `front` being what comes in front of
it, `after` what comes behind the expression and `stop` the place of its last token. -/
structure Ahead (us : List Token) (stop : Position) (after front ts : List Token) : Prop where
  eq : us = front ++ (ts ++ after)
  ends : EndsExpression after
  last : ∃ before t, front ++ ts = before ++ [t] ∧ stop = t.position

/-- What is left of an expression behind an operand. -/
def Behind (us : List Token) (stop : Position) (after rest : List Token) : Prop :=
  ∃ front, Ahead us stop after front rest ∧ HasOperand front

/-- What is left begins with no operator that binds at least as strongly as `least`. -/
def Weak (least : Nat) (rest : List Token) : Prop :=
  ∀ t ∈ rest.head?, ∀ b ∈ t.infixPower?, b.2.1 < least

/-- The tokens in front end with an operator. -/
def OperatorLast (front : List Token) : Prop :=
  ∃ before o, front = before ++ [o] ∧ o.infixPower?.isSome

section
variable {us after front ts : List Token} {stop : Position} {t : Token}

namespace Ahead

theorem tail (h : Ahead us stop after front (t :: ts)) :
    Ahead us stop after (front ++ [t]) ts :=
  ⟨by simpa using h.eq, h.ends, by simpa using h.last⟩

theorem behind (h : Ahead us stop after front (t :: ts))
    (ht : t.value.isLiteral ∨ t.kind = .identifier) : Behind us stop after ts :=
  ⟨front ++ [t], h.tail, front, t, rfl, ht.imp_right .inl⟩

theorem unexpected_stop (h : Ahead us stop after front ts) {k : Kind} (hk : Asks (front ++ ts) k) :
    (SyntaxError.unexpected k .semicolon stop).Fits us := by
  obtain ⟨before, t, hlast, rfl⟩ := h.last
  rw [hlast] at hk
  refine ⟨before, t, after, ?_, rfl, .inr ⟨rfl, h.ends, hk⟩⟩
  rw [h.eq, ← List.append_assoc, hlast, List.append_assoc, List.singleton_append]

theorem unexpected_head (h : Ahead us stop after front (t :: ts)) {k : Kind} (hk : Asks front k) :
    (SyntaxError.unexpected k t.kind t.position).Fits us :=
  ⟨front, t, ts ++ after, h.eq, rfl, .inl ⟨rfl, hk⟩⟩

theorem invalid_head (h : Ahead us stop after front (t :: ts))
    (ht : WantsOperand front ∧ t.beginsOperand = false ∨ HasOperand front ∧ t.infixPower? = none) :
    (SyntaxError.of (.invalidExpression t.kind) t.position).Fits us :=
  ⟨front, t, ts ++ after, h.eq, rfl, rfl, ht⟩

/-- Where an operator comes last, an operand is missing. -/
theorem empty_stop (h : Ahead us stop after front []) (hlast : OperatorLast front) :
    (SyntaxError.of .emptyExpression stop).Fits us := by
  obtain ⟨before, o, rfl, ho⟩ := hlast
  obtain ⟨before', t, hlast, rfl⟩ := h.last
  rw [List.append_nil] at hlast
  obtain ⟨-, ht⟩ := List.append_inj' hlast rfl
  obtain rfl := List.singleton_inj.mp ht
  exact ⟨before, o, after, by simpa using h.eq, rfl, .inr ⟨ho, h.ends⟩⟩

end Ahead

theorem isSome_infixPower? {o : Operator} (ht : t.value = .operator o) (ho : o.isBinary) :
    t.infixPower?.isSome := by
  rw [Token.infixPower?, ht]
  cases o with
  | equal => cases ho
  | _ => rfl

theorem exists_operator_of_infixPower? (ht : t.infixPower?.isSome) :
    ∃ o, t.value = .operator o := by
  unfold Token.infixPower? at ht
  split at ht
  · exact ⟨_, ‹_›⟩
  · cases ht

end

section
variable {us : List Token}

mutual

theorem groupAt_confined {stop : Position} {after front ts : List Token}
    (h : Ahead us stop after front ts)
    (hasks : (∃ t ∈ ts.head?, t.kind = .openParen) ∨ Asks front .openParen) :
    Confined (·.Fits us) (fun r => Behind us stop after r.2) (groupAt stop ts) := by
  match ts with
  | [] =>
    rw [groupAt_nil]
    exact h.unexpected_stop (by simpa using hasks)
  | t :: ts =>
    rw [groupAt_cons]
    split
    · rename_i ht
      cases hcut : cutAtParen ts with
      | none =>
        obtain ⟨d, hd⟩ := exists_depth_of_cutAtClose hcut
        exact h.unexpected_stop (.closing ht hd)
      | some r =>
        obtain ⟨inside, rest⟩ := r
        have hlen := cutAtClose_length hcut
        obtain ⟨-, c, hc, rfl⟩ := eq_of_cutAtClose hcut
        have hinside : us = (front ++ [t]) ++ (inside ++ c :: (rest ++ after)) := by
          simpa using h.eq
        have hrest : Behind us stop after rest := by
          refine ⟨front ++ t :: (inside ++ [c]), ⟨?_, h.ends, by simpa using h.last⟩,
            front ++ t :: inside, c, by simp, .inr (.inr hc)⟩
          simpa using h.eq
        refine (readExpr_confined hinside (by simpa [EndsExpression] using hc)
          ⟨front, t, rfl, .inr ht⟩ ?_).map fun _ _ => hrest
        rintro rfl
        exact ⟨front, t, c :: (rest ++ after), by simpa using h.eq, rfl, .inl ⟨ht, c, rfl, hc⟩⟩
    · rename_i ht
      exact h.unexpected_head (hasks.resolve_left (by simpa using ht))
termination_by 4 * ts.length
decreasing_by
  simp only [List.length_cons]
  omega

theorem operandAt_confined {stop : Position} {after front ts : List Token}
    (h : Ahead us stop after front ts) (hwants : WantsOperand front)
    (hlast : ts = [] → OperatorLast front) :
    Confined (·.Fits us) (fun r => Behind us stop after r.2) (operandAt stop ts) := by
  match ts with
  | [] =>
    rw [operandAt_nil]
    exact h.empty_stop (hlast rfl)
  | t :: ts =>
    have sign {o : Operator} (hv : t.value = .operator o) (ho : o.isBinary) :
        Confined (·.Fits us) (fun r => Behind us stop after r.2 ∧ Weak signPower r.2)
          (aboveAt stop signPower ts) :=
      aboveAt_confined h.tail ⟨front, t, rfl, .inl ⟨o, hv⟩⟩
        fun _ => ⟨front, t, rfl, isSome_infixPower? hv ho⟩
    have call {f : Builtin} (hv : t.value = .builtin f) :
        Confined (·.Fits us) (fun r => Behind us stop after r.2) (groupAt stop ts) :=
      groupAt_confined h.tail (.inr (.argument hv))
    rw [operandAt_cons]
    split
    · exact h.behind (.inl (by simp [*, Value.isLiteral]))
    · exact h.behind (.inl (by simp [*, Value.isLiteral]))
    · exact h.behind (.inl (by simp [*, Value.isLiteral]))
    · exact (sign ‹_› rfl).map fun _ hr => hr.1
    · exact (sign ‹_› rfl).map fun _ hr => hr.1
    · exact (call ‹_›).map fun _ hr => hr
    · exact (call ‹_›).map fun _ hr => hr
    · split
      · exact h.behind (.inr ‹_›)
      · exact groupAt_confined h (.inl ⟨t, rfl, ‹_›⟩)
      · refine h.invalid_head (.inl ⟨hwants, ?_⟩)
        unfold Token.beginsOperand
        split <;> simp_all
termination_by 4 * ts.length + 1
decreasing_by
  all_goals simp only [List.length_cons]
  all_goals omega

theorem aboveAt_confined {stop : Position} {least : Nat} {after front ts : List Token}
    (h : Ahead us stop after front ts) (hwants : WantsOperand front)
    (hlast : ts = [] → OperatorLast front) :
    Confined (·.Fits us) (fun r => Behind us stop after r.2 ∧ Weak least r.2)
      (aboveAt stop least ts) := by
  rw [aboveAt_eq]
  refine (operandAt_confined h hwants hlast).bind fun r hr hrest => ?_
  have hlen := operandAt_length hr
  exact moreAt_confined hrest
termination_by 4 * ts.length + 2
decreasing_by
  · omega
  · omega

theorem moreAt_confined {stop : Position} {least : Nat} {left : Expr} {after ts : List Token}
    (h : Behind us stop after ts) :
    Confined (·.Fits us) (fun r => Behind us stop after r.2 ∧ Weak least r.2)
      (moreAt stop least left ts) := by
  match ts with
  | [] =>
    rw [moreAt_nil]
    exact ⟨h, by simp [Weak]⟩
  | t :: ts =>
    rw [moreAt_cons]
    cases ht : t.infixPower? with
    | none => exact ⟨h, by simp [Weak, ht]⟩
    | some power =>
      dsimp only
      split
      · rename_i hweak
        refine ⟨h, ?_⟩
        rintro _ ⟨⟩ b hb
        obtain rfl := Option.some.inj (ht.symm.trans hb)
        exact hweak
      · have hinfix : t.infixPower?.isSome := by rw [ht]; rfl
        obtain ⟨front, hahead, -⟩ := h
        refine (aboveAt_confined hahead.tail
          ⟨front, t, rfl, .inl (exists_operator_of_infixPower? hinfix)⟩
          fun _ => ⟨front, t, rfl, hinfix⟩).bind fun r hr hrest => ?_
        have hlen := aboveAt_length hr
        exact moreAt_confined hrest.1
termination_by 4 * ts.length
decreasing_by
  all_goals simp only [List.length_cons]
  all_goals omega

theorem readExpr_confined {before : Position} {after front ts : List Token}
    (hus : us = front ++ (ts ++ after)) (hafter : EndsExpression after)
    (hwants : WantsOperand front)
    (hempty : ts = [] → (SyntaxError.of .emptyExpression before).Fits us) :
    Confined (·.Fits us) (fun _ => True) (readExpr before ts) := by
  rw [readExpr_eq]
  split
  · exact hempty ‹_›
  · rename_i hne
    have hahead : Ahead us (endPosition ts) after front ts := by
      obtain ⟨inner, t, hlast, hp⟩ := exists_getLast hne
      exact ⟨hus, hafter, front ++ inner, t, by rw [hlast, List.append_assoc], hp⟩
    have habove := @aboveAt_confined (endPosition ts) 0 after front ts hahead hwants
      fun h => absurd h hne
    cases ha : aboveAt (endPosition ts) 0 ts with
    | error e =>
      rw [ha] at habove
      exact habove
    | ok r =>
      obtain ⟨e, rest⟩ := r
      rw [ha] at habove
      obtain ⟨⟨front', hrest, hoperand⟩, hweak⟩ := habove
      cases rest with
      | nil => trivial
      | cons t rest =>
        refine hrest.invalid_head (.inr ⟨hoperand, ?_⟩)
        cases hpower : t.infixPower? with
        | none => rfl
        | some b => exact absurd (hweak t rfl b hpower) (Nat.not_lt_zero _)
termination_by 4 * ts.length + 3

end

end

/-! ### Statements -/

/-- The first closing parenthesis in excess stands behind balanced ones. -/
theorem firstExcess?_eq_some {d : Nat} {us : List Token} {p : Position}
    (h : firstExcess? d us = some p) :
    ∃ front t back, us = front ++ t :: back ∧ p = t.position ∧ t.kind = .closeParen ∧
      depthAfter .openParen .closeParen d front = some 0 := by
  induction us generalizing d with
  | nil => simp [firstExcess?] at h
  | cons u us ih =>
    have further {d' : Nat} (h' : firstExcess? d' us = some p)
        (hd : ∀ ts, depthAfter .openParen .closeParen d (u :: ts) =
          depthAfter .openParen .closeParen d' ts) :
        ∃ front t back, u :: us = front ++ t :: back ∧ p = t.position ∧ t.kind = .closeParen ∧
          depthAfter .openParen .closeParen d front = some 0 := by
      obtain ⟨front, t, back, rfl, hp, ht, hfront⟩ := ih h'
      exact ⟨u :: front, t, back, rfl, hp, ht, (hd front).trans hfront⟩
    simp only [firstExcess?] at h
    split at h
    · rename_i ho
      exact further h (depthAfter_open ho d)
    · rename_i ho
      split at h
      · rename_i hc
        cases d with
        | zero => exact ⟨[], u, us, rfl, (Option.some.inj h).symm, hc, rfl⟩
        | succ d => exact further h (depthAfter_close ho hc d)
      · rename_i hc
        exact further h (depthAfter_other ho hc d)

theorem checkParentheses_confined (t : Token) (ts : List Token) :
    Confined (·.Fits (t :: ts)) (fun _ => True) (checkParentheses (t :: ts)) := by
  simp only [checkParentheses]
  split
  · rename_i p hp
    obtain ⟨front, c, back, hus, hpos, hc, hfront⟩ := firstExcess?_eq_some hp
    exact ⟨front, c, back, hus, hpos, by rw [hus], by rw [hus], .inl ⟨hc, hfront⟩⟩
  · rename_i hnone
    split
    · trivial
    · rename_i hcounts
      obtain ⟨d, hd⟩ := (firstExcess?_eq_none_iff 0 (t :: ts)).mp hnone
      have hcount := countKind_of_depthAfter (by decide) hd
      cases d with
      | zero => exact absurd (by omega) hcounts
      | succ d => exact ⟨[], t, ts, rfl, rfl, rfl, rfl, .inr ⟨rfl, d, hd⟩⟩

/-- What a pattern asks for is what stands before an equals sign, and then the sign. -/
def Headed (ks : List Kind) : List Expected → Prop
  | [] => True
  | .kind k :: es => (∃ heads ∈ equalHeads, ks ++ [k] <+: heads) ∧ Headed (ks ++ [k]) es
  | .operator _ :: es => ks ∈ equalHeads ∧ es = []

theorem checkForm_confined {us front : List Token} {es : List Expected} {ts : List Token}
    (hus : us = front ++ ts) (hes : Headed (front.map Token.kind) es) :
    Confined (·.Fits us) (fun _ => True) (checkForm es ts) := by
  induction es generalizing front ts with
  | nil => simp [checkForm, Confined]
  | cons e es ih =>
    cases ts with
    | nil => cases e <;> trivial
    | cons t ts =>
      cases e with
      | kind k =>
        obtain ⟨⟨heads, hheads, hprefix⟩, hes⟩ := hes
        rw [checkForm]
        split
        · rename_i hk
          exact @ih (front ++ [t]) ts (by simp [hus]) (by simpa [hk] using hes)
        · exact ⟨front, t, ts, hus, rfl, .inl ⟨rfl, .head hheads hprefix⟩⟩
      | operator o =>
        rw [checkForm]
        split
        · rw [hes.2]
          simp [checkForm, Confined]
        · rename_i ho
          exact ⟨front, t, ts, hus, rfl, Bool.eq_false_iff.mpr ho, hes.1⟩

theorem tooFew_fits {ts : List Token} (hne : ts ≠ []) {statement : String} {least : Nat}
    (hlt : ts.length < least) : (tooFew statement least ts).Fits ts := by
  obtain ⟨front, t, hts, hp⟩ := exists_getLast hne
  refine ⟨front, t, [], hts, hp, rfl, ?_, hlt⟩
  rw [hts, List.length_append, List.length_singleton]

theorem readBareDeclaration_confined {ts : List Token} (hne : ts ≠ [])
    (hequal : ∀ t ∈ ts, t.isOperator .equal = false) :
    Confined (·.Fits ts) (fun _ => True) (readBareDeclaration ts) := by
  refine (@checkForm_confined ts [] _ ts rfl (by simp [Headed, equalHeads])).bind ?_
  rintro ⟨⟩ hform -
  split
  · rename_i d name colon type
    simp only [checkForm_kind] at hform
    split
    · rename_i hconst
      exact ⟨[], d, [name, colon, type], rfl, rfl, rfl, hform.1, hconst, name, rfl, rfl⟩
    · trivial
  · rename_i d name colon type extra more
    simp only [checkForm_kind] at hform
    exact ⟨[d, name, colon, type], extra, more, rfl, rfl, hequal _ (by simp),
      by simp [equalHeads, hform]⟩
  · rename_i hfour hmore
    refine tooFew_fits hne ?_
    rcases ts with _ | ⟨a, _ | ⟨b, _ | ⟨c, _ | ⟨d, _ | ⟨e, more⟩⟩⟩⟩⟩
    · exact Nat.succ_pos _
    · exact Nat.lt_of_sub_eq_succ rfl
    · exact Nat.lt_of_sub_eq_succ rfl
    · exact Nat.lt_of_sub_eq_succ rfl
    · exact absurd rfl (hfour a b c d)
    · exact absurd rfl (hmore a b c d e more)

/-- Behind the equals sign an operand has to follow. -/
theorem wantsOperand_equal {front : List Token} {t : Token} (ht : t.isOperator .equal) :
    WantsOperand (front ++ [t]) :=
  ⟨front, t, rfl, .inl ⟨.equal, of_decide_eq_true ht⟩⟩

theorem readDeclaration_confined {ts : List Token} (hne : ts ≠ []) :
    Confined (·.Fits ts) (fun _ => True) (readDeclaration ts) := by
  refine (@checkForm_confined ts [] _ ts rfl (by simp [Headed, equalHeads])).bind ?_
  rintro ⟨⟩ hform -
  split
  · rename_i d name colon type equal v vs
    simp only [checkForm_kind, checkForm_operator] at hform
    have hvalue : d :: name :: colon :: type :: equal :: v :: vs =
        ([d, name, colon, type] ++ [equal]) ++ (v :: vs ++ []) := by simp
    exact (readExpr_confined hvalue (by simp [EndsExpression]) (wantsOperand_equal hform.2.2.2.2.1)
      (absurd · (List.cons_ne_nil v vs))).bind fun _ _ _ => trivial
  · rename_i hshort
    refine tooFew_fits hne ?_
    rcases ts with _ | ⟨a, _ | ⟨b, _ | ⟨c, _ | ⟨d, _ | ⟨e, _ | ⟨f, more⟩⟩⟩⟩⟩⟩
    all_goals first | exact Nat.lt_of_sub_eq_succ rfl | skip
    exact absurd rfl (hshort a b c d e f more)

theorem readAssignment_confined {ts : List Token} (hne : ts ≠ []) :
    Confined (·.Fits ts) (fun _ => True) (readAssignment ts) := by
  refine (@checkForm_confined ts [] _ ts rfl (by simp [Headed, equalHeads])).bind ?_
  rintro ⟨⟩ hform -
  split
  · rename_i name equal v vs
    simp only [checkForm_kind, checkForm_operator] at hform
    have hvalue : name :: equal :: v :: vs = ([name] ++ [equal]) ++ (v :: vs ++ []) := by simp
    exact (readExpr_confined hvalue (by simp [EndsExpression]) (wantsOperand_equal hform.2.1)
      (absurd · (List.cons_ne_nil v vs))).bind fun _ _ _ => trivial
  · rename_i hshort
    refine tooFew_fits hne ?_
    rcases ts with _ | ⟨a, _ | ⟨b, _ | ⟨c, more⟩⟩⟩
    all_goals first | exact Nat.lt_of_sub_eq_succ rfl | skip
    exact absurd rfl (hshort a b c more)

section
variable {us front ts : List Token} {stop : Position} (hus : us = front ++ ts)
  (hstop : ∃ before t, us = before ++ [t] ∧ stop = t.position)

include hstop in
/-- What is missing at the end of a statement is reported at its last token. -/
theorem unexpected_fits {k : Kind} (hk : Asks us k) :
    (SyntaxError.unexpected k .semicolon stop).Fits us := by
  obtain ⟨before, t, rfl, rfl⟩ := hstop
  exact ⟨before, t, [], rfl, rfl, .inr ⟨rfl, by simp [EndsExpression], hk⟩⟩

include hus hstop

theorem takeParens_confined (hasks : Asks front .openParen) :
    Confined (·.Fits us) (fun r => ∃ o c, ts = o :: (r.2.1 ++ c :: r.2.2) ∧
      o.kind = .openParen ∧ c.kind = .closeParen ∧ r.1 = o.position) (takeParens stop ts) := by
  unfold takeParens
  split
  · refine unexpected_fits hstop ?_
    rwa [hus, List.append_nil]
  · rename_i t more
    split
    · rename_i ht
      split
      · rename_i hcut
        obtain ⟨d, hd⟩ := exists_depth_of_cutAtClose hcut
        refine unexpected_fits hstop ?_
        rw [hus]
        exact .closing ht hd
      · rename_i inside rest hcut
        obtain ⟨-, c, hc, rfl⟩ := eq_of_cutAtClose hcut
        exact ⟨t, c, rfl, ht, hc, rfl⟩
    · exact ⟨front, t, more, hus, rfl, .inl ⟨rfl, hasks⟩⟩

theorem takeBraces_confined (hasks : Asks front .openBrace) :
    Confined (·.Fits us) (fun r => ∃ o c, ts = o :: (r.1 ++ c :: r.2) ∧ o.kind = .openBrace ∧
      c.kind = .closeBrace ∧ Balanced .openBrace .closeBrace r.1) (takeBraces stop ts) := by
  unfold takeBraces
  split
  · refine unexpected_fits hstop ?_
    rwa [hus, List.append_nil]
  · rename_i t more
    split
    · rename_i ht
      split
      · rename_i hcut
        obtain ⟨d, hd⟩ := exists_depth_of_cutAtClose hcut
        refine ⟨front, t, more, hus, rfl, .inr ⟨.inr ht, d, ?_⟩⟩
        rw [depthAfter_open ht]
        exact depthAfter_add hd 1
      · rename_i inside rest hcut
        obtain ⟨hb, c, hc, rfl⟩ := eq_of_cutAtClose hcut
        exact ⟨t, c, rfl, ht, hc, hb⟩
    · exact ⟨front, t, more, hus, rfl, .inl ⟨rfl, hasks⟩⟩

end

/-- What stands between parentheses is an expression of its own. -/
theorem enclosedExpr_confined {us front inside rest : List Token} {o c : Token}
    (hus : us = front ++ o :: (inside ++ c :: rest)) (ho : o.kind = .openParen)
    (hc : c.kind = .closeParen) :
    Confined (·.Fits us) (fun _ => True) (readExpr o.position inside) := by
  have hinside : us = (front ++ [o]) ++ (inside ++ c :: rest) := by simp [hus]
  refine readExpr_confined hinside (by simpa [EndsExpression] using hc) ⟨front, o, rfl, .inr ho⟩ ?_
  rintro rfl
  exact ⟨front, o, c :: rest, hus, rfl, .inl ⟨ho, c, rfl, hc⟩⟩

theorem Line.exists_last (l : Line) :
    ∃ front t, l.tokens = front ++ [t] ∧ endPosition l.tokens = t.position :=
  exists_getLast (List.cons_ne_nil _ _)

theorem Line.tokens_eq (l : Line) : l.tokens = [l.first] ++ l.rest := rfl

theorem readCall_confined (l : Line) :
    Confined (·.Fits l.tokens) (fun _ => True) (readCall l) := by
  unfold readCall
  split
  · rename_i f hf
    have hasks : Asks [l.first] .openParen := @Asks.argument [] l.first f hf
    refine (takeParens_confined l.tokens_eq l.exists_last hasks).bind fun r _ hr => ?_
    obtain ⟨p, inside, rest⟩ := r
    obtain ⟨o, c, hrest, ho, hc, rfl⟩ := hr
    have hus : l.tokens = [l.first] ++ o :: (inside ++ c :: rest) := by
      rw [Line.tokens, hrest]
      rfl
    cases rest with
    | nil => exact (enclosedExpr_confined hus ho hc).bind fun _ _ _ => trivial
    | cons extra rest =>
      exact ⟨(l.first :: o :: inside) ++ [c], extra, rest, by rw [hus]; simp, rfl,
        .inl ⟨rfl, .ending (.inl hc)⟩⟩
  · exact ⟨[], l.first, l.rest, rfl, rfl, .inl ⟨rfl, .function⟩⟩

/-- What is wrong behind the last complete line fits what is left there. -/
theorem Leaves.fits {rest : List Token} {e : SyntaxError} (h : Leaves rest (some e)) :
    e.Fits rest := by
  cases h with
  | @unterminated f r =>
    obtain ⟨front, t, hlast, hp⟩ := exists_getLast (List.cons_ne_nil f r)
    exact ⟨front, t, [], hlast, hp, rfl⟩
  | @unclosed f r d hd => exact ⟨[], f, r, rfl, rfl, .inr ⟨.inl rfl, d, hd⟩⟩
  | @excess c r ts hb hc => exact ⟨r, c, ts, rfl, rfl, .inl ⟨hc, hb⟩⟩

theorem blames_of_fault {ts : List Token} {e : SyntaxError} (h : (cutLines ts).fault = some e) :
    e.Blames Segment ts := by
  obtain ⟨front, rest, hts, hfront, hrest⟩ := cutLines_divides ts
  have hfits : e.Fits rest := by
    rw [h] at hrest
    exact hrest.fits
  have hne : rest ≠ [] := by
    obtain ⟨before, t, back, rfl, -⟩ := hfits
    simp
  refine ⟨rest, .rest hts hfront hrest hne, fun t ht => ?_, hfits⟩
  rw [hts]
  exact List.mem_append_right _ ht

mutual

theorem readBranch_confined (l : Line) (hif : l.first.kind = .ifWord) :
    Confined (·.Blames Part l.tokens) (fun _ => True) (readBranch l) := by
  have block {front inside back : List Token} {o c : Token}
      (hus : l.tokens = front ++ o :: (inside ++ c :: back)) (ho : o.kind = .openBrace)
      (hc : c.kind = .closeBrace) (hb : Balanced .openBrace .closeBrace inside) :
      Confined (·.Blames Part l.tokens) (fun _ => True) (readBlock inside) :=
    have hlt : inside.length < l.tokens.length := by
      simp only [hus, List.length_append, List.length_cons]
      omega
    (readBlock_confined inside).imp fun _ he => he.inner hus ho hc hb
  rw [readBranch_eq]
  refine (takeParens_confined l.tokens_eq l.exists_last (.condition hif)).blames.bind
    fun r _ hr => ?_
  obtain ⟨p, inside, rest⟩ := r
  obtain ⟨o, c, hrest, ho, hc, rfl⟩ := hr
  have hus : l.tokens = [l.first] ++ o :: (inside ++ c :: rest) := by
    rw [Line.tokens, hrest]
    rfl
  refine (enclosedExpr_confined hus ho hc).blames.bind fun condition _ _ => ?_
  have hthen : l.tokens = ((l.first :: o :: inside) ++ [c]) ++ rest := by simp [hus]
  refine (takeBraces_confined hthen l.exists_last (.block (.inl hc))).blames.bind
    fun b _ hbraces => ?_
  obtain ⟨thenTokens, rest₂⟩ := b
  obtain ⟨o₂, c₂, rfl, ho₂, hc₂, hb₂⟩ := hbraces
  generalize (l.first :: o :: inside) ++ [c] = front at hthen
  refine (block hthen ho₂ hc₂ hb₂).bind fun thenPart _ _ => ?_
  cases rest₂ with
  | nil => trivial
  | cons w rest₃ =>
    have hword : l.tokens = ((front ++ o₂ :: thenTokens) ++ [c₂]) ++ w :: rest₃ := by simp [hthen]
    simp only [readElse]
    split
    · rename_i hw
      have helse : l.tokens = (((front ++ o₂ :: thenTokens) ++ [c₂]) ++ [w]) ++ rest₃ := by
        simp [hword]
      refine (takeBraces_confined helse l.exists_last (.block (.inr hw))).blames.bind
        fun b _ hbraces => ?_
      obtain ⟨elseTokens, rest₄⟩ := b
      obtain ⟨o₃, c₃, rfl, ho₃, hc₃, hb₃⟩ := hbraces
      generalize ((front ++ o₂ :: thenTokens) ++ [c₂]) ++ [w] = front₃ at helse
      refine (block helse ho₃ hc₃ hb₃).bind fun elsePart _ _ => ?_
      cases rest₄ with
      | nil => trivial
      | cons extra more =>
        have hextra : (SyntaxError.unexpected .semicolon extra.kind extra.position).Fits l.tokens :=
          ⟨(front₃ ++ o₃ :: elseTokens) ++ [c₃], extra, more, by simp [helse], rfl,
            .inl ⟨rfl, .ending (.inr hc₃)⟩⟩
        exact hextra.blames
    · have hother : (SyntaxError.unexpected .elseWord w.kind w.position).Fits l.tokens :=
        ⟨_, w, rest₃, hword, rfl, .inl ⟨rfl, .otherwise hc₂⟩⟩
      exact hother.blames
termination_by 3 * l.tokens.length
decreasing_by omega

theorem readStatement_confined (l : Line) :
    Confined (·.Blames Part l.tokens) (fun _ => True) (readStatement l) := by
  have hne : l.tokens ≠ [] := List.cons_ne_nil _ _
  rw [readStatement_eq]
  refine (checkParentheses_confined l.first l.rest).blames.bind fun _ _ _ => ?_
  split
  · split
    · exact (readDeclaration_confined hne).blames
    · rename_i hequal
      exact (readBareDeclaration_confined hne (by simpa [Line.tokens] using hequal)).blames
  · exact readBranch_confined l ‹_›
  · split
    · exact (readCall_confined l).blames
    · split
      · exact (readAssignment_confined hne).blames
      · have hfirst : (SyntaxError.of (.unrecognizedStatement l.first.kind)
            l.first.position).Fits l.tokens :=
          ⟨[], l.first, l.rest, rfl, rfl, rfl, rfl⟩
        exact hfirst.blames
termination_by 3 * l.tokens.length + 1

theorem readBlock_confined (ts : List Token) :
    Confined (·.Blames Segment ts) (fun _ => True) (readBlock ts) := by
  have hlines : ∀ l ∈ (cutLines ts).lines,
      Confined (·.Blames Segment ts) (fun _ => True) (readStatement l) :=
    fun l hl => (readStatement_confined l).imp fun _ he => he.line hl
  rw [readBlock_eq]
  refine (Confined.mapM hlines).bind fun ss _ _ => ?_
  cases hf : (cutLines ts).fault with
  | none => trivial
  | some e => exact blames_of_fault hf
termination_by 3 * ts.length + 2
decreasing_by
  have := cutLines_length hl
  omega

end

end LetScript
