import LetScript.Proofs.Access

/-! Expressions by index. Expressions are read once more with indices and ranges, and a recursive
call is made only after a check that it is about a shorter list or a later index. No check fails,
and the outcome is the same. -/
namespace LetScript
namespace Guarded

/-- A reader whose checks can fail. -/
abbrev Checked (α : Type) := ExceptT SyntaxError (Except Breach) α

/-! ### Recursive calls -/

/-- An index of a list of tokens. -/
structure Spot where
  tokens : List Token
  index : Nat

namespace Spot

/-- In a shorter list, or at a later index of the same list. -/
def After (s r : Spot) : Prop :=
  s.tokens.length < r.tokens.length ∨
    s.tokens = r.tokens ∧ r.index < s.index ∧ s.index ≤ r.tokens.length

instance (s r : Spot) : Decidable (s.After r) := inferInstanceAs (Decidable (_ ∨ _))

/-- What is left of a list of tokens decides, then the stage of the reader. -/
theorem After.lex {s r : Spot} (h : s.After r) (a b : Nat) :
    Prod.Lex (· < ·) (Prod.Lex (· < ·) (· < ·))
      (s.tokens.length, s.tokens.length - s.index, a)
      (r.tokens.length, r.tokens.length - r.index, b) := by
  rcases h with h | ⟨htokens, hindex, hle⟩
  · exact .left _ _ h
  · rw [htokens]
    exact .right _ (.left _ _ (by omega))

theorem After.length_lt {as bs : List Token} (h : After ⟨as, 0⟩ ⟨bs, 0⟩) :
    as.length < bs.length := by
  rcases h with h | ⟨-, h, -⟩
  · exact h
  · exact absurd h (Nat.lt_irrefl 0)

end Spot

/-- A recursive call, provided that it gets further. Calls that stay where they are go to a reader
of a lower stage and need no check. -/
def descend {α : Type} (caller callee : Spot) (call : callee.After caller → Checked α) : Checked α :=
  if h : callee.After caller then call h else ExceptT.lift (.error .stalled)

theorem descend_eq {α : Type} {caller callee : Spot} {call : callee.After caller → Checked α}
    (h : callee.After caller) : descend caller callee call = call h := dif_pos h

/-! ### Readers -/

def expectAt (ts : List Token) (i : Nat) (k : Kind) : Except SyntaxError Unit :=
  match ts[i]? with
  | some t => if t.kind = k then .ok () else .error (.unexpected k t.kind t.position)
  | none => .error (.unexpected k .semicolon (endPosition ts))

mutual

def groupFrom (ts : List Token) (i : Nat) : Checked (Expr × Nat) := do
  expectAt ts i .openParen
  match ← matchingClose ts i with
  | none => throw (.unexpected .closeParen .semicolon (endPosition ts))
  | some close =>
    let inside ← slice ts (i + 1) close
    let opening ← tokenAt ts i
    let e ← descend ⟨ts, i⟩ ⟨inside, 0⟩ fun _ => exprOf opening.position inside
    return (e, close + 1)
termination_by (ts.length, ts.length - i, 0)
decreasing_by exact Spot.After.lex ‹_› _ _

def operandFrom (ts : List Token) (i : Nat) : Checked (Expr × Nat) :=
  match ts[i]? with
  | none => throw (.of .emptyExpression (endPosition ts))
  | some t =>
    match t.value with
    | .number x => return (.literal (.number x) t.position, i + 1)
    | .string s => return (.literal (.string s) t.position, i + 1)
    | .boolean b => return (.literal (.boolean b) t.position, i + 1)
    | .operator .sum => do
      let (e, next) ← descend ⟨ts, i⟩ ⟨ts, i + 1⟩ fun _ => aboveFrom ts signPower (i + 1)
      return (.signed .sum e t.position, next)
    | .operator .subtract => do
      let (e, next) ← descend ⟨ts, i⟩ ⟨ts, i + 1⟩ fun _ => aboveFrom ts signPower (i + 1)
      return (.signed .subtract e t.position, next)
    | .builtin .readInput => do
      let (e, next) ← descend ⟨ts, i⟩ ⟨ts, i + 1⟩ fun _ => groupFrom ts (i + 1)
      return (.call .readInput e t.position, next)
    | .builtin .readEnv => do
      let (e, next) ← descend ⟨ts, i⟩ ⟨ts, i + 1⟩ fun _ => groupFrom ts (i + 1)
      return (.call .readEnv e t.position, next)
    | _ =>
      match t.kind with
      | .identifier => return (.identifier ⟨t.nameText, t.position⟩, i + 1)
      | .openParen => groupFrom ts i
      | k => throw (.of (.invalidExpression k) t.position)
termination_by (ts.length, ts.length - i, 1)
decreasing_by
  · exact Spot.After.lex ‹_› _ _
  · exact Spot.After.lex ‹_› _ _
  · exact Spot.After.lex ‹_› _ _
  · exact Spot.After.lex ‹_› _ _
  · exact .right _ (.right _ Nat.one_pos)

def aboveFrom (ts : List Token) (least i : Nat) : Checked (Expr × Nat) := do
  let (left, next) ← operandFrom ts i
  descend ⟨ts, i⟩ ⟨ts, next⟩ fun _ => moreFrom ts least left next
termination_by (ts.length, ts.length - i, 2)
decreasing_by
  · exact .right _ (.right _ (by decide))
  · exact Spot.After.lex ‹_› _ _

def moreFrom (ts : List Token) (least : Nat) (left : Expr) (i : Nat) : Checked (Expr × Nat) :=
  match ts[i]? with
  | none => return (left, i)
  | some t =>
    match t.infixPower? with
    | none => return (left, i)
    | some (o, toLeft, toRight) => do
      if toLeft < least then return (left, i)
      else
        let (right, next) ← descend ⟨ts, i⟩ ⟨ts, i + 1⟩ fun _ => aboveFrom ts toRight (i + 1)
        descend ⟨ts, i⟩ ⟨ts, next⟩ fun _ => moreFrom ts least (.binary o left right) next
termination_by (ts.length, ts.length - i, 0)
decreasing_by
  · exact Spot.After.lex ‹_› _ _
  · exact Spot.After.lex ‹_› _ _

def exprOf (before : Position) (ts : List Token) : Checked Expr := do
  if ts = [] then throw (.of .emptyExpression before)
  else
    let (e, next) ← aboveFrom ts 0 0
    match ts[next]? with
    | none => return e
    | some extra => throw (.of (.invalidExpression extra.kind) extra.position)
termination_by (ts.length, ts.length, 3)
decreasing_by exact .right _ (.right _ (by decide))

end

/-! ### Agreement -/

/-- A checked answer and a plain one are the same error, or related results. -/
def Agrees {α β : Type} (R : α → β → Prop) : Checked α → Except SyntaxError β → Prop
  | .ok (.ok a), .ok b => R a b
  | .ok (.error e), .error e' => e = e'
  | _, _ => False

namespace Agrees

variable {α β γ δ : Type} {R : α → β → Prop} {S : γ → δ → Prop} {x : Checked α}
  {y : Except SyntaxError β}

theorem bind (h : Agrees R x y) {f : α → Checked γ} {g : β → Except SyntaxError δ}
    (hf : ∀ a b, y = .ok b → R a b → Agrees S (f a) (g b)) : Agrees S (x >>= f) (y.bind g) := by
  rcases x with breach | e | a
  · exact h.elim
  · cases y with
    | error e' => exact h
    | ok b => exact h.elim
  · cases y with
    | error e' => exact h.elim
    | ok b => exact hf a b rfl h

theorem map (h : Agrees R x y) {f : α → γ} {g : β → δ} (hf : ∀ a b, R a b → S (f a) (g b)) :
    Agrees S (x >>= fun a => pure (f a)) (y.map g) := by
  rw [show y.map g = y.bind fun b => .ok (g b) by cases y <;> rfl]
  exact h.bind fun a b _ hab => hf a b hab

/-- Checks that pass leave the rest to be compared. -/
theorem lift {c : Except Breach γ} {a : γ} (hc : c = .ok a) {f : γ → Checked α}
    (h : Agrees R (f a) y) : Agrees R (liftM c >>= f) y := by
  subst hc
  exact h

theorem answer {c : Except SyntaxError γ} {f : γ → Checked α} {g : γ → Except SyntaxError β}
    (h : ∀ a, c = .ok a → Agrees R (f a) (g a)) : Agrees R (liftM c >>= f) (c.bind g) := by
  cases c with
  | error e => exact rfl
  | ok a => exact h a rfl

theorem mapM {f : β → Checked γ} {g : α → Except SyntaxError γ} {p : α → β} {as : List α}
    (h : ∀ a ∈ as, Agrees Eq (f (p a)) (g a)) : Agrees Eq ((as.map p).mapM f) (as.mapM g) := by
  induction as with
  | nil => exact rfl
  | cons a as ih =>
    rw [List.map_cons, List.mapM_cons, List.mapM_cons]
    refine (h a (by simp)).bind fun c c' _ hc => ?_
    refine (ih fun a ha => h a (by simp [ha])).bind fun cs cs' _ hcs => ?_
    rw [hc, hcs]
    exact rfl

theorem eq_ok {x : Checked α} {y : Except SyntaxError α} (h : Agrees Eq x y) : x = Except.ok y := by
  rcases x with breach | e | a
  · exact h.elim
  · cases y with
    | error e' => exact congrArg (Except.ok ∘ Except.error) h
    | ok b => exact h.elim
  · cases y with
    | error e' => exact h.elim
    | ok b => exact congrArg (Except.ok ∘ Except.ok) h

end Agrees

/-- The index where a reader has come to tells what is left of the tokens. -/
def Reached {α : Type} (ts : List Token) (x : α × Nat) (y : α × List Token) : Prop :=
  x.1 = y.1 ∧ x.2 ≤ ts.length ∧ ts.drop x.2 = y.2

theorem after_of_lt {ts : List Token} {i j : Nat} (hij : i < j) (hj : j ≤ ts.length) :
    (Spot.mk ts j).After ⟨ts, i⟩ := .inr ⟨rfl, hij, hj⟩

theorem after_next {ts more : List Token} {i : Nat} {t : Token} (h : ts.drop i = t :: more) :
    (Spot.mk ts (i + 1)).After ⟨ts, i⟩ := after_of_lt (Nat.lt_succ_self i) (lt_length_of_drop h)

/-- Less is left at a later index. -/
theorem lt_of_length_drop {ts : List Token} {i j : Nat}
    (h : (ts.drop j).length < (ts.drop i).length) : i < j := by
  rw [List.length_drop, List.length_drop] at h
  omega

section
variable {ts inside rest : List Token} {c : Token} {i : Nat} (h : ts.drop i = inside ++ c :: rest)
include h

theorem lt_length_of_enclosed : i + inside.length < ts.length :=
  lt_length_of_drop (drop_of_append h)

theorem reached_behind :
    i + inside.length + 1 ≤ ts.length ∧ ts.drop (i + inside.length + 1) = rest :=
  ⟨lt_length_of_enclosed h, drop_succ_of_drop (drop_of_append h)⟩

end

theorem expectAt_of_drop {ts more : List Token} {i : Nat} {t : Token} (h : ts.drop i = t :: more)
    (k : Kind) :
    expectAt ts i k =
      if t.kind = k then .ok () else .error (.unexpected k t.kind t.position) := by
  rw [expectAt, getElem?_of_drop h]

theorem expectAt_of_nil {ts : List Token} {i : Nat} (h : ts.drop i = []) (k : Kind) :
    expectAt ts i k = .error (.unexpected k .semicolon (endPosition ts)) := by
  rw [expectAt, List.getElem?_eq_none (List.drop_eq_nil_iff.mp h)]

section
variable {α β : Type} {ts : List Token} {i : Nat}

/-- What is read at an index and then put into a larger expression. -/
theorem Agrees.wrap {x : Checked (α × Nat)} {y : Except SyntaxError (α × List Token)}
    (h : Agrees (Reached ts) x y) (f : α → β) :
    Agrees (Reached ts) (x >>= fun r => pure (f r.1, r.2)) (y.map fun r => (f r.1, r.2)) :=
  h.map fun _ _ hab => ⟨congrArg f hab.1, hab.2⟩

end

-- By induction on what is left of the tokens, and then on the stage, as the readers recurse.
mutual

theorem groupFrom_agrees (ts : List Token) (i : Nat) :
    Agrees (Reached ts) (groupFrom ts i) (groupAt (endPosition ts) (ts.drop i)) := by
  rw [groupFrom]
  cases hrest : ts.drop i with
  | nil =>
    rw [groupAt_nil, expectAt_of_nil hrest]
    exact rfl
  | cons t more =>
    rw [groupAt_cons, expectAt_of_drop hrest]
    by_cases ht : t.kind = .openParen
    · rw [if_pos ht, if_pos ht]
      refine .lift (a := (cutAtParen more).map fun r => i + 1 + r.1.length)
        (matchingClose_of_drop .paren hrest ht) ?_
      cases hcut : cutAtParen more with
      | none => exact rfl
      | some r =>
        obtain ⟨inside, rest⟩ := r
        obtain ⟨-, c, -, rfl⟩ := eq_of_cutAtClose hcut
        have hmore := drop_succ_of_drop hrest
        have hlen := lt_length_of_enclosed hmore
        refine .lift (slice_of_drop hmore (lt_length_of_drop hrest)) ?_
        refine .lift (tokenAt_of_drop hrest) ?_
        rw [descend_eq (.inl (by simp only; omega))]
        refine (exprOf_agrees _ inside).map fun e e' he => ⟨he, ?_⟩
        exact reached_behind hmore
    · rw [if_neg ht, if_neg ht]
      exact rfl
termination_by 4 * (ts.length - i)
decreasing_by omega

theorem operandFrom_agrees (ts : List Token) (i : Nat) :
    Agrees (Reached ts) (operandFrom ts i) (operandAt (endPosition ts) (ts.drop i)) := by
  rw [operandFrom]
  cases hrest : ts.drop i with
  | nil =>
    rw [operandAt_nil, List.getElem?_eq_none (List.drop_eq_nil_iff.mp hrest)]
    exact rfl
  | cons t more =>
    have hmore := drop_succ_of_drop hrest
    have hlt := lt_length_of_drop hrest
    simp only [operandAt_cons, getElem?_of_drop hrest, descend_eq (after_next hrest)]
    have here (e : Expr) : Reached ts (e, i + 1) (e, more) := ⟨rfl, hlt, hmore⟩
    have above : Agrees (Reached ts) (aboveFrom ts signPower (i + 1))
        (aboveAt (endPosition ts) signPower more) :=
      hmore ▸ aboveFrom_agrees ts signPower (i + 1)
    have group : Agrees (Reached ts) (groupFrom ts (i + 1)) (groupAt (endPosition ts) more) :=
      hmore ▸ groupFrom_agrees ts (i + 1)
    have same : Agrees (Reached ts) (groupFrom ts i) (groupAt (endPosition ts) (t :: more)) :=
      hrest ▸ groupFrom_agrees ts i
    have named : Agrees (Reached ts)
        (match t.kind with
          | .identifier => pure (.identifier ⟨t.nameText, t.position⟩, i + 1)
          | .openParen => groupFrom ts i
          | k => throw (.of (.invalidExpression k) t.position))
        (match t.kind with
          | .identifier => .ok (.identifier ⟨t.nameText, t.position⟩, more)
          | .openParen => groupAt (endPosition ts) (t :: more)
          | k => .error (.of (.invalidExpression k) t.position)) := by
      split
      · exact here _
      · exact same
      · exact rfl
    cases hv : t.value with
    | number x => exact here _
    | string s => exact here _
    | boolean b => exact here _
    | operator o =>
      cases o with
      | sum => exact above.wrap (Expr.signed .sum · t.position)
      | subtract => exact above.wrap (Expr.signed .subtract · t.position)
      | _ => exact named
    | builtin f =>
      cases f with
      | println => exact named
      | readInput => exact group.wrap (Expr.call .readInput · t.position)
      | readEnv => exact group.wrap (Expr.call .readEnv · t.position)
    | _ => exact named
termination_by 4 * (ts.length - i) + 1
decreasing_by all_goals omega

theorem aboveFrom_agrees (ts : List Token) (least i : Nat) :
    Agrees (Reached ts) (aboveFrom ts least i)
      (aboveAt (endPosition ts) least (ts.drop i)) := by
  rw [aboveFrom, aboveAt_eq]
  refine (operandFrom_agrees ts i).bind fun x y hread hreached => ?_
  obtain ⟨left, next⟩ := x
  obtain ⟨left', rest⟩ := y
  obtain ⟨rfl, hnext, rfl⟩ := hreached
  have hlater : i < next := lt_of_length_drop (operandAt_length hread)
  simp only [descend_eq (after_of_lt hlater hnext)]
  exact moreFrom_agrees ts least left hnext
termination_by 4 * (ts.length - i) + 2
decreasing_by all_goals omega

theorem moreFrom_agrees (ts : List Token) (least : Nat) (left : Expr) {i : Nat} (hi : i ≤ ts.length) :
    Agrees (Reached ts) (moreFrom ts least left i)
      (moreAt (endPosition ts) least left (ts.drop i)) := by
  rw [moreFrom]
  cases hrest : ts.drop i with
  | nil =>
    rw [moreAt_nil, List.getElem?_eq_none (List.drop_eq_nil_iff.mp hrest)]
    exact ⟨rfl, hi, hrest⟩
  | cons t more =>
    have hmore := drop_succ_of_drop hrest
    have hlt := lt_length_of_drop hrest
    have here : Reached ts (left, i) (left, t :: more) := ⟨rfl, hi, hrest⟩
    simp only [moreAt_cons, getElem?_of_drop hrest]
    cases hpower : t.infixPower? with
    | none => exact here
    | some b =>
      obtain ⟨o, toLeft, toRight⟩ := b
      by_cases hweak : toLeft < least
      · simp only [hweak, if_true]
        exact here
      · simp only [hweak, if_false, descend_eq (after_next hrest)]
        have above := aboveFrom_agrees ts toRight (i + 1)
        rw [hmore] at above
        refine above.bind fun x y hread hreached => ?_
        obtain ⟨right, next⟩ := x
        obtain ⟨right', rest⟩ := y
        obtain ⟨rfl, hnext, rfl⟩ := hreached
        have hless : (ts.drop next).length < (ts.drop i).length := by
          rw [hrest, List.length_cons]
          exact Nat.lt_succ_of_lt (aboveAt_length hread)
        have hlater := lt_of_length_drop hless
        simp only [descend_eq (after_of_lt hlater hnext)]
        exact moreFrom_agrees ts least _ hnext
termination_by 4 * (ts.length - i)
decreasing_by all_goals omega

theorem exprOf_agrees (before : Position) (ts : List Token) :
    Agrees Eq (exprOf before ts) (readExpr before ts) := by
  rw [exprOf, readExpr_eq_bind]
  by_cases hnil : ts = []
  · simp only [hnil, if_true]
    exact rfl
  · simp only [hnil, if_false]
    refine (aboveFrom_agrees ts 0 0).bind fun x y _ hreached => ?_
    obtain ⟨e, next⟩ := x
    obtain ⟨e', rest⟩ := y
    obtain ⟨rfl, -, hrest⟩ := hreached
    cases rest with
    | nil =>
      simp only [List.getElem?_eq_none (List.drop_eq_nil_iff.mp hrest)]
      exact rfl
    | cons t rest =>
      simp only [getElem?_of_drop hrest]
      exact rfl
termination_by 4 * ts.length + 3
decreasing_by all_goals omega

end

end Guarded
end LetScript
