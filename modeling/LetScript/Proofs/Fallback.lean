import LetScript.Proofs.Block
import LetScript.Proofs.Nesting
import LetScript.Proofs.Recovery

/-! Errors about brackets. A line is only read once its parentheses are found to be balanced, and
it only exists because its braces are. Main statement: the readers never miss a closing bracket
later on, so an unbalanced line is reported as such. -/
namespace LetScript

/-- The faults of a bracket that is not closed where it should be, and of a conditional that goes
on without `else`. -/
def SyntaxFault.IsMissed : SyntaxFault → Prop
  | .unexpectedToken .closeParen _ => True
  | .unexpectedToken .elseWord _ => True
  | .unbalancedBraces => True
  | _ => False

/-- A result is as wanted, or else its error is not about a missed bracket. -/
def Spared {α : Type} (P : α → Prop) : Except SyntaxError α → Prop
  | .ok a => P a
  | .error e => ¬ e.fault.IsMissed

namespace Spared

variable {α β : Type} {P : α → Prop} {Q : β → Prop} {x : Except SyntaxError α}

theorem bind (hx : Spared P x) {f : α → Except SyntaxError β}
    (hf : ∀ a, x = .ok a → P a → Spared Q (f a)) : Spared Q (x.bind f) := by
  cases x with
  | error e => exact hx
  | ok a => exact hf a rfl hx

theorem map (hx : Spared P x) {f : α → β} (hf : ∀ a, P a → Q (f a)) : Spared Q (x.map f) := by
  cases x with
  | error e => exact hx
  | ok a => exact hf a hx

theorem mapM {f : α → Except SyntaxError β} {as : List α}
    (h : ∀ a ∈ as, Spared (fun _ => True) (f a)) : Spared (fun _ => True) (as.mapM f) := by
  induction as with
  | nil => trivial
  | cons a as ih =>
    rw [List.mapM_cons]
    refine (h a (by simp)).bind fun b _ _ => ?_
    exact (ih fun a ha => h a (by simp [ha])).bind fun bs _ _ => trivial

end Spared

/-! ### Expressions -/

/-- Consistent tokens with balanced parentheses. -/
structure WellNested (ts : List Token) : Prop where
  consistent : ∀ t ∈ ts, t.Consistent
  balanced : Balanced .openParen .closeParen ts

namespace WellNested

variable {t : Token} {ts : List Token}

theorem tail (h : WellNested (t :: ts)) (ho : t.kind ≠ .openParen) (hc : t.kind ≠ .closeParen) :
    WellNested ts :=
  ⟨(List.forall_mem_cons.mp h.consistent).2, h.balanced.of_cons ho hc⟩

/-- Only a token with its text as value can be a parenthesis. -/
theorem tail_of_value (h : WellNested (t :: ts)) (hv : ∀ s, t.value ≠ .raw s) : WellNested ts := by
  have hk := (List.forall_mem_cons.mp h.consistent).1.kind_eq
  have hno : t.kind ≠ .openParen ∧ t.kind ≠ .closeParen := by
    cases hval : t.value with
    | raw s => exact absurd hval (hv s)
    | _ =>
      simp only [hval] at hk
      simp [hk]
  exact h.tail hno.1 hno.2

theorem exists_cut (h : WellNested (t :: ts)) (ht : t.kind = .openParen) :
    ∃ inside rest, cutAtParen ts = some (inside, rest) ∧ WellNested inside ∧ WellNested rest := by
  obtain ⟨inside, c, rest, hcut, -, rfl, hin, hrest⟩ := h.balanced.exists_cut (by decide) ht
  have hc := List.forall_mem_append.mp (List.forall_mem_cons.mp h.consistent).2
  exact ⟨inside, rest, hcut, ⟨hc.1, hin⟩, ⟨(List.forall_mem_cons.mp hc.2).2, hrest⟩⟩

end WellNested

mutual

theorem groupAt_spared {stop : Position} {ts : List Token} (h : WellNested ts) :
    Spared (fun r => WellNested r.2) (groupAt stop ts) := by
  match ts with
  | [] =>
    rw [groupAt_nil]
    exact id
  | t :: ts =>
    rw [groupAt_cons]
    by_cases ht : t.kind = .openParen
    · obtain ⟨inside, rest, hcut, hin, hrest⟩ := h.exists_cut ht
      have hlen := cutAtClose_length hcut
      rw [if_pos ht, hcut]
      exact (readExpr_spared hin).map fun _ _ => hrest
    · rw [if_neg ht]
      exact id
termination_by 4 * ts.length
decreasing_by
  simp only [List.length_cons]
  omega

theorem operandAt_spared {stop : Position} {ts : List Token} (h : WellNested ts) :
    Spared (fun r => WellNested r.2) (operandAt stop ts) := by
  match ts with
  | [] =>
    rw [operandAt_nil]
    exact id
  | t :: ts =>
    rw [operandAt_cons]
    split
    · rename_i hv
      exact h.tail_of_value (by simp [hv])
    · rename_i hv
      exact h.tail_of_value (by simp [hv])
    · rename_i hv
      exact h.tail_of_value (by simp [hv])
    · rename_i hv
      exact (aboveAt_spared (h.tail_of_value (by simp [hv]))).map fun _ h => h
    · rename_i hv
      exact (aboveAt_spared (h.tail_of_value (by simp [hv]))).map fun _ h => h
    · rename_i hv
      exact (groupAt_spared (h.tail_of_value (by simp [hv]))).map fun _ h => h
    · rename_i hv
      exact (groupAt_spared (h.tail_of_value (by simp [hv]))).map fun _ h => h
    · split
      · rename_i hk
        exact h.tail (by simp [hk]) (by simp [hk])
      · exact groupAt_spared h
      · exact id
termination_by 4 * ts.length + 1
decreasing_by
  all_goals simp only [List.length_cons]
  all_goals omega

theorem aboveAt_spared {stop : Position} {least : Nat} {ts : List Token} (h : WellNested ts) :
    Spared (fun r => WellNested r.2) (aboveAt stop least ts) := by
  rw [aboveAt_eq]
  refine (operandAt_spared h).bind fun r hr hrest => ?_
  have hlen := operandAt_length hr
  exact moreAt_spared hrest
termination_by 4 * ts.length + 2
decreasing_by
  · omega
  · omega

theorem moreAt_spared {stop : Position} {least : Nat} {left : Expr} {ts : List Token}
    (h : WellNested ts) : Spared (fun r => WellNested r.2) (moreAt stop least left ts) := by
  match ts with
  | [] =>
    rw [moreAt_nil]
    exact h
  | t :: ts =>
    rw [moreAt_cons]
    cases hpower : t.infixPower? with
    | none => exact h
    | some b =>
      obtain ⟨o, toLeft, toRight⟩ := b
      have hv : ∀ s, t.value ≠ .raw s := by
        intro s hs
        simp [Token.infixPower?, hs] at hpower
      simp only
      split
      · exact h
      · refine (aboveAt_spared (h.tail_of_value hv)).bind fun r hr hrest => ?_
        have hlen := aboveAt_length hr
        exact moreAt_spared hrest
termination_by 4 * ts.length
decreasing_by
  all_goals simp only [List.length_cons]
  all_goals omega

theorem readExpr_spared {before : Position} {ts : List Token} (h : WellNested ts) :
    Spared (fun _ => True) (readExpr before ts) := by
  rw [readExpr_eq_bind]
  split
  · exact id
  · refine (aboveAt_spared h).bind fun r _ _ => ?_
    obtain ⟨e, rest⟩ := r
    cases rest with
    | nil => trivial
    | cons t rest => exact id
termination_by 4 * ts.length + 3

end

/-! ### Statements -/

theorem checkForm_spared {es : List Expected} (hparen : .kind .closeParen ∉ es)
    (helse : .kind .elseWord ∉ es) (ts : List Token) :
    Spared (fun _ => True) (checkForm es ts) := by
  induction es generalizing ts with
  | nil => simp [checkForm, Spared]
  | cons e es ih =>
    have further := ih (List.not_mem_of_not_mem_cons hparen) (List.not_mem_of_not_mem_cons helse)
    cases ts with
    | nil => cases e <;> trivial
    | cons t ts =>
      cases e with
      | kind k =>
        rw [checkForm]
        split
        · exact further ts
        · cases k with
          | closeParen => exact absurd List.mem_cons_self hparen
          | elseWord => exact absurd List.mem_cons_self helse
          | _ => exact id
      | operator o =>
        rw [checkForm]
        split
        · exact further ts
        · exact id

theorem readBareDeclaration_spared (ts : List Token) :
    Spared (fun _ => True) (readBareDeclaration ts) := by
  refine (checkForm_spared (by decide) (by decide) ts).bind fun _ _ _ => ?_
  split
  · split
    · exact id
    · trivial
  · exact id
  · exact id

theorem readDeclaration_spared {ts : List Token} (h : WellNested ts) :
    Spared (fun _ => True) (readDeclaration ts) := by
  refine (checkForm_spared (by decide) (by decide) ts).bind ?_
  rintro ⟨⟩ hform -
  split
  · rename_i d name colon type equal v vs
    simp only [checkForm_kind, checkForm_operator] at hform
    obtain ⟨hd, hname, hcolon, htype, hequal, -⟩ := hform
    have hname' := h.tail (by simp [hd]) (by simp [hd])
    have hcolon' := hname'.tail (by simp [hname]) (by simp [hname])
    have htype' := hcolon'.tail (by simp [hcolon]) (by simp [hcolon])
    have hequal' := htype'.tail (by simp [htype]) (by simp [htype])
    have hvalue := hequal'.tail_of_value (by simp [of_decide_eq_true hequal])
    exact (readExpr_spared hvalue).bind fun _ _ _ => trivial
  · exact id

theorem readAssignment_spared {ts : List Token} (h : WellNested ts) :
    Spared (fun _ => True) (readAssignment ts) := by
  refine (checkForm_spared (by decide) (by decide) ts).bind ?_
  rintro ⟨⟩ hform -
  split
  · rename_i name equal v vs
    simp only [checkForm_kind, checkForm_operator] at hform
    obtain ⟨hname, hequal, -⟩ := hform
    have hequal' := h.tail (by simp [hname]) (by simp [hname])
    have hvalue := hequal'.tail_of_value (by simp [of_decide_eq_true hequal])
    exact (readExpr_spared hvalue).bind fun _ _ _ => trivial
  · exact id

theorem takeParens_spared {stop : Position} {ts : List Token} (h : WellNested ts) :
    Spared (fun r => WellNested r.2.1 ∧ WellNested r.2.2) (takeParens stop ts) := by
  unfold takeParens
  split
  · exact id
  · split
    · rename_i ht
      obtain ⟨inside, rest, hcut, hin, hrest⟩ := h.exists_cut ht
      rw [hcut]
      exact ⟨hin, hrest⟩
    · exact id

theorem readCall_spared {l : Line} (h : WellNested l.tokens) :
    Spared (fun _ => True) (readCall l) := by
  unfold readCall
  split
  · rename_i f hf
    have hrest : WellNested l.rest := h.tail_of_value (by simp [hf])
    refine (takeParens_spared hrest).bind fun r _ hr => ?_
    obtain ⟨p, inside, rest⟩ := r
    cases rest with
    | nil => exact (readExpr_spared hr.1).bind fun _ _ _ => trivial
    | cons extra rest => exact id
  · exact id

/-! ### Conditionals -/

theorem balanced_of_isDivider {ts : List Token} (h : ∀ t ∈ ts, t.kind.isDivider = false) :
    Balanced .openBrace .closeBrace ts := by
  refine balanced_of_forall fun t ht => ⟨fun hk => ?_, fun hk => ?_⟩
  · simpa [hk, Kind.isDivider] using h t ht
  · simpa [hk, Kind.isDivider] using h t ht

/-- What stands behind the condition of a conditional has balanced braces, and ends with its last
branch. -/
theorem Line.Sealed.behind_condition {l : Line} (hs : l.Sealed) (hif : l.first.kind = .ifWord)
    (hc : ∀ t ∈ l.tokens, t.Consistent) {stop p : Position} {inside rest : List Token}
    (hp : takeParens stop l.rest = .ok (p, inside, rest)) {e : Expr}
    (he : readExpr p inside = .ok e) :
    Balanced .openBrace .closeBrace rest ∧ EndsOutside rest := by
  have hcons := List.forall_mem_cons.mp hc
  obtain ⟨o, c, ho, hcl, hrest⟩ := takeParens_sound hcons.2 hp
  have hin : ∀ t ∈ inside, t.Consistent := fun t ht => hcons.2 t (by rw [hrest]; simp [ht])
  have hplain : ∀ t ∈ l.first :: o :: (inside ++ [c]), t.kind.isDivider = false := by
    have := fun t ht => inExpression_isDivider ((readExpr_sound hin he).inExpression t ht)
    simpa [or_imp, forall_and, hif, ho.kind, hcl.kind, Kind.isDivider] using this
  have hfront := balanced_of_isDivider hplain
  have htokens : l.tokens = l.first :: o :: (inside ++ [c]) ++ rest := by
    rw [Line.tokens, hrest]
    rfl
  have hb := hs.balanced
  have hends := hs.ends hif
  rw [htokens] at hb hends
  exact ⟨hb.of_append hfront, hends.of_append hfront⟩

/-- Braces where balanced tokens begin are closed. -/
theorem takeBraces_spared {stop : Position} {ts : List Token}
    (h : Balanced .openBrace .closeBrace ts) :
    Spared (fun r => ∃ o c, c.kind = .closeBrace ∧ ts = o :: (r.1 ++ c :: r.2) ∧ o.kind = .openBrace ∧
      Balanced .openBrace .closeBrace r.1 ∧ Balanced .openBrace .closeBrace r.2)
      (takeBraces stop ts) := by
  unfold takeBraces
  split
  · exact id
  · rename_i o more
    split
    · rename_i ho
      obtain ⟨inside, c, rest, hcut, hc, rfl, hin, hrest⟩ := h.exists_cut (by decide) ho
      rw [show cutAtBrace (inside ++ c :: rest) = some (inside, rest) from hcut]
      exact ⟨o, c, hc, rfl, ho, hin, hrest⟩
    · exact id

theorem consistent_of_mem_cutLines {ts : List Token} (hc : ∀ t ∈ ts, t.Consistent) {l : Line}
    (hl : l ∈ (cutLines ts).lines) : ∀ t ∈ l.tokens, t.Consistent := by
  obtain ⟨front, rest, rfl, hfront, -⟩ := cutLines_divides ts
  exact fun t ht => hc t (List.mem_append_left _ (hfront.mem hl ht))

theorem checkParentheses_spared (ts : List Token) :
    Spared (fun _ => Balanced .openParen .closeParen ts) (checkParentheses ts) := by
  cases h : checkParentheses ts with
  | ok u => exact (checkParentheses_eq_ok_iff ts).mp h
  | error e =>
    rw [Spared, fault_of_checkParentheses h]
    exact id

mutual

theorem readBranch_spared {l : Line} (hs : l.Sealed) (hif : l.first.kind = .ifWord)
    (h : WellNested l.tokens) : Spared (fun _ => True) (readBranch l) := by
  have hlen : l.tokens.length = l.rest.length + 1 := by simp [Line.tokens]
  rw [readBranch_eq]
  have hrest : WellNested l.rest := h.tail (by simp [hif]) (by simp [hif])
  refine (takeParens_spared hrest).bind fun r hr hparts => ?_
  obtain ⟨p, inside, rest₁⟩ := r
  have hlen₁ := takeParens_length hr
  refine (readExpr_spared hparts.1).bind fun condition he _ => ?_
  obtain ⟨hbraces, hends⟩ := hs.behind_condition hif h.consistent hr he
  refine (takeBraces_spared hbraces).bind fun b hb hthen => ?_
  obtain ⟨as, rest₂⟩ := b
  have hlen₂ := takeBraces_length hb
  obtain ⟨o, c, hc, rfl, ho, has, hrest₂⟩ := hthen
  have hcons := hparts.2.consistent
  refine (readBlock_spared (fun t ht => hcons t (by simp [ht])) has).bind fun thenPart _ _ => ?_
  cases rest₂ with
  | nil => trivial
  | cons w rest₃ =>
    have hw : w.kind = .elseWord := by
      have := hends (o :: as) c (w :: rest₃) rfl hc (has.enclose ho hc (by decide))
      simpa [elseFollows] using this
    simp only [readElse, hw, if_true]
    have hrest₃ := hrest₂.of_cons (by simp [hw]) (by simp [hw])
    refine (takeBraces_spared hrest₃).bind fun b' hb' helse => ?_
    obtain ⟨bs, rest₄⟩ := b'
    have hlen₃ := takeBraces_length hb'
    obtain ⟨o', c', -, rfl, -, hbs, -⟩ := helse
    refine (readBlock_spared (fun t ht => hcons t (by simp [ht])) hbs).bind fun elsePart _ _ => ?_
    cases rest₄ with
    | nil => trivial
    | cons extra more => exact id
termination_by 3 * l.tokens.length
decreasing_by
  · simp only at *; omega
  · simp at *; omega

theorem readStatement_spared {l : Line} (hs : l.Sealed) (hc : ∀ t ∈ l.tokens, t.Consistent) :
    Spared (fun _ => True) (readStatement l) := by
  rw [readStatement_eq]
  refine (checkParentheses_spared l.tokens).bind fun _ _ hb => ?_
  have h : WellNested l.tokens := ⟨hc, hb⟩
  split
  · split
    · exact readDeclaration_spared h
    · exact readBareDeclaration_spared l.tokens
  · rename_i hif
    exact readBranch_spared hs hif h
  · split
    · exact readCall_spared h
    · split
      · exact readAssignment_spared h
      · exact id
termination_by 3 * l.tokens.length + 1

theorem readBlock_spared {ts : List Token} (hc : ∀ t ∈ ts, t.Consistent)
    (hb : Balanced .openBrace .closeBrace ts) : Spared (fun _ => True) (readBlock ts) := by
  have hlines : ∀ l ∈ (cutLines ts).lines, Spared (fun _ => True) (readStatement l) :=
    fun l hl => readStatement_spared (cutLines_sealed hl) (consistent_of_mem_cutLines hc hl)
  rw [readBlock_eq]
  refine (Spared.mapM hlines).bind fun ss _ _ => ?_
  cases hf : (cutLines ts).fault with
  | none => trivial
  | some e =>
    rw [Spared, fault_of_balanced hb hf]
    exact id
termination_by 3 * ts.length + 2
decreasing_by
  have := cutLines_length hl
  omega

end

/-! ### The search for closing braces -/

/-- Reading a conditional comes to an opening brace, with `more` behind it: behind the condition,
or behind `else` where a branch is closed. -/
inductive Line.Opens (l : Line) : List Token → Prop
  | first {p : Position} {inside more : List Token} {o : Token} {e : Expr}
      (hif : l.first.kind = .ifWord)
      (hp : takeParens (endPosition l.tokens) l.rest = .ok (p, inside, o :: more))
      (he : readExpr p inside = .ok e) (ho : o.kind = .openBrace) : l.Opens more
  | next {more inside more' : List Token} {w o : Token} (h : l.Opens more)
      (hcut : cutAtBrace more = some (inside, w :: o :: more')) (hw : w.kind = .elseWord)
      (ho : o.kind = .openBrace) : l.Opens more'

/-- The blocks that reading a block comes to, however deep they lie in it. -/
inductive HasBlock (ts : List Token) : List Token → Prop
  | self : HasBlock ts ts
  | inner {us more inside rest : List Token} {l : Line} (h : HasBlock ts us)
      (hl : l ∈ (cutLines us).lines) (ho : l.Opens more)
      (hcut : cutAtBrace more = some (inside, rest)) : HasBlock ts inside

theorem Line.Opens.subset {l : Line} (hc : ∀ t ∈ l.tokens, t.Consistent) {more : List Token}
    (h : l.Opens more) : more ⊆ l.tokens := by
  induction h with
  | first hif hp he ho =>
    obtain ⟨o, c, -, -, hrest⟩ := takeParens_sound (List.forall_mem_cons.mp hc).2 hp
    rw [Line.tokens, hrest]
    exact fun t ht => by simp [ht]
  | next h hcut hw ho ih =>
    obtain ⟨-, c, -, rfl⟩ := eq_of_cutAtClose hcut
    exact fun t ht => ih (by simp [ht])

theorem Line.Opens.balanced {l : Line} (hs : l.Sealed) (hc : ∀ t ∈ l.tokens, t.Consistent)
    {more : List Token} (h : l.Opens more) :
    ∃ o : Token, o.kind = .openBrace ∧ Balanced .openBrace .closeBrace (o :: more) := by
  induction h with
  | @first p inside more o e hif hp he ho => exact ⟨o, ho, (hs.behind_condition hif hc hp he).1⟩
  | @next more inside more' w o h hcut hw ho ih =>
    obtain ⟨o', ho', hb⟩ := ih
    obtain ⟨inside', c, rest, hcut', -, -, -, hrest⟩ := hb.exists_cut (by decide) ho'
    obtain ⟨-, rfl⟩ := Prod.mk.inj (Option.some.inj (hcut'.symm.trans hcut))
    exact ⟨o, ho, hrest.of_cons (by simp [hw]) (by simp [hw])⟩

theorem HasBlock.consistent {ts us : List Token} (h : HasBlock ts us)
    (hc : ∀ t ∈ ts, t.Consistent) : ∀ t ∈ us, t.Consistent := by
  induction h with
  | self => exact hc
  | inner h hl ho hcut ih =>
    have hline := consistent_of_mem_cutLines ih hl
    obtain ⟨-, c, -, rfl⟩ := eq_of_cutAtClose hcut
    exact fun t ht => hline t (ho.subset hline (by simp [ht]))

theorem fault_of_cutLines {ts : List Token} {e : SyntaxError} (h : (cutLines ts).fault = some e) :
    e.fault = .missingTerminator ∨ e.fault = .unbalancedBraces := by
  obtain ⟨front, rest, -, -, hrest⟩ := cutLines_divides ts
  rw [h] at hrest
  cases hrest with
  | unterminated => exact .inl rfl
  | unclosed => exact .inr rfl
  | excess => exact .inr rfl

/-- An error of a program is not about a missed bracket, unless it is that of cutting the program
into lines. -/
theorem error_of_parseEachLine {ts : List Token} (hc : ∀ t ∈ ts, t.Consistent) {e : SyntaxError}
    (h : .error e ∈ parseEachLine ts) :
    ¬ e.fault.IsMissed ∨ e.fault = .unbalancedBraces ∧ (cutLines (significant ts)).fault = some e := by
  have hs : ∀ t ∈ significant ts, t.Consistent := fun t ht => hc t (List.mem_of_mem_filter ht)
  rcases List.mem_append.mp h with h | h
  · obtain ⟨l, hl, he⟩ := List.mem_map.mp h
    have hspared := readStatement_spared (cutLines_sealed hl) (consistent_of_mem_cutLines hs hl)
    rw [he] at hspared
    exact .inl hspared
  · have hfault : (cutLines (significant ts)).fault = some e := by simpa using h
    rcases fault_of_cutLines hfault with he | he
    · exact .inl (by rw [he]; exact id)
    · exact .inr ⟨he, hfault⟩

/-- A line passes the check of its parentheses exactly if they spell a Dyck word, and an error
tells how many of them open and close. Behind the check no error of a program says that a closing
parenthesis or `else` was expected, and the brace that closes a branch is always found, at any
depth. So an error about braces is that of cutting the program into lines. -/
theorem brackets_reported (ts : List Token) (hc : ∀ t ∈ ts, t.Consistent) :
    (∀ us, (checkParentheses us = .ok () ↔ ∃ w : DyckWord, w.toList = parenSteps us) ∧
      ∀ e, checkParentheses us = .error e →
        e.fault = .unbalancedParentheses ((parenSteps us).count .U) ((parenSteps us).count .D)) ∧
    (∀ e, parse ts = .error e ∨ .error e ∈ parseEachLine ts →
      (∀ k, e.fault ≠ .unexpectedToken .closeParen k) ∧
      (∀ k, e.fault ≠ .unexpectedToken .elseWord k) ∧
      (e.fault = .unbalancedBraces → (cutLines (significant ts)).fault = some e)) ∧
    ∀ us, HasBlock (significant ts) us → ∀ l ∈ (cutLines us).lines, ∀ more, l.Opens more →
      ∃ r, cutAtBrace more = some r := by
  refine ⟨fun us => ⟨?_, fun e => fault_of_checkParentheses⟩, fun e he => ?_, ?_⟩
  · rw [checkParentheses_eq_ok_iff, balanced_iff_dyck]
  · have hmem : .error e ∈ parseEachLine ts := he.elim error_mem_parseEachLine id
    rcases error_of_parseEachLine hc hmem with hspared | ⟨hbraces, hfault⟩
    · refine ⟨fun k hk => ?_, fun k hk => ?_, fun hb => ?_⟩
      · exact hspared (by rw [hk]; trivial)
      · exact hspared (by rw [hk]; trivial)
      · exact absurd (by rw [hb]; trivial) hspared
    · exact ⟨fun k => by simp [hbraces], fun k => by simp [hbraces], fun _ => hfault⟩
  · intro us hus l hl more hopens
    have hs : ∀ t ∈ significant ts, t.Consistent := fun t ht => hc t (List.mem_of_mem_filter ht)
    have hline := consistent_of_mem_cutLines (hus.consistent hs) hl
    obtain ⟨o, ho, hb⟩ := hopens.balanced (cutLines_sealed hl) hline
    obtain ⟨inside, c, rest, hcut, -⟩ := hb.exists_cut (by decide) ho
    exact ⟨(inside, rest), hcut⟩

/-- The tokens of three lines: `a=(b;`, a conditional in a conditional, with a second branch, and
`if(a)` with a brace behind it that is not closed. -/
def unclosedBrackets : List Token :=
  [.identifier "a" ⟨1, 0⟩, .operator .equal ⟨1, 1⟩, .raw .openParen "(" ⟨1, 2⟩,
   .identifier "b" ⟨1, 3⟩, .raw .semicolon ";" ⟨1, 4⟩, .lineBreak ⟨1, 5⟩,
   .raw .ifWord "if" ⟨2, 0⟩, .raw .openParen "(" ⟨2, 2⟩, .identifier "a" ⟨2, 3⟩,
   .raw .closeParen ")" ⟨2, 4⟩, .raw .openBrace "\x7b" ⟨2, 5⟩, .raw .ifWord "if" ⟨2, 6⟩,
   .raw .openParen "(" ⟨2, 8⟩, .identifier "b" ⟨2, 9⟩, .raw .closeParen ")" ⟨2, 10⟩,
   .raw .openBrace "\x7b" ⟨2, 11⟩, .raw .closeBrace "\x7d" ⟨2, 12⟩, .raw .elseWord "else" ⟨2, 13⟩,
   .raw .openBrace "\x7b" ⟨2, 17⟩, .raw .closeBrace "\x7d" ⟨2, 18⟩,
   .raw .closeBrace "\x7d" ⟨2, 19⟩, .lineBreak ⟨2, 20⟩,
   .raw .ifWord "if" ⟨3, 0⟩, .raw .openParen "(" ⟨3, 2⟩, .identifier "a" ⟨3, 3⟩,
   .raw .closeParen ")" ⟨3, 4⟩, .raw .openBrace "\x7b" ⟨3, 5⟩]

theorem brackets_reported_unclosedBrackets :
    let e := SyntaxError.of .unbalancedBraces ⟨3, 0⟩
    let inner := (unclosedBrackets.drop 11).take 9
    let l : Line := ⟨.raw .ifWord "if" ⟨2, 6⟩, inner.tail⟩
    (∀ t ∈ unclosedBrackets, t.Consistent) ∧
      (¬ ∃ w : DyckWord, w.toList = parenSteps (unclosedBrackets.take 4)) ∧
      parse unclosedBrackets = .error (.of (.unbalancedParentheses 1 0) ⟨1, 0⟩) ∧
      .error e ∈ parseEachLine unclosedBrackets ∧
      (cutLines (significant unclosedBrackets)).fault = some e ∧
      HasBlock (significant unclosedBrackets) inner ∧ l ∈ (cutLines inner).lines ∧
      l.Opens (inner.drop 8) ∧ ∃ r, cutAtBrace (inner.drop 8) = some r := by
  intro e inner l
  have hc : ∀ t ∈ unclosedBrackets, t.Consistent := by decide
  obtain ⟨hdyck, herror, hclosed⟩ := brackets_reported unclosedBrackets hc
  have hfirst : checkParentheses (unclosedBrackets.take 4) ≠ .ok () := by decide
  have hparse : parse unclosedBrackets = .error (.of (.unbalancedParentheses 1 0) ⟨1, 0⟩) := by
    rw [← errorOf?_eq_some_iff]
    decide +kernel
  have hlast : .error e ∈ parseEachLine unclosedBrackets := by
    rw [← mem_errorsIn]
    decide +kernel
  have opens {l : Line} {p : Position} {o t : Token} {more : List Token}
      (hif : l.first.kind = .ifWord) (ho : o.kind = .openBrace)
      (hp : takeParens (endPosition l.tokens) l.rest = .ok (p, [t], o :: more))
      (hname : (readExpr p [t]).isOk) : l.Opens more := by
    obtain ⟨condition, he⟩ := exists_of_isOk hname
    exact .first hif hp he ho
  have houter : Line.Opens ⟨.raw .ifWord "if" ⟨2, 0⟩, (unclosedBrackets.drop 7).take 14⟩
      ((unclosedBrackets.drop 11).take 10) := opens rfl rfl rfl (by decide +kernel)
  have hfront : l.Opens (inner.drop 5) := opens rfl rfl rfl (by decide +kernel)
  have hsecond : l.Opens (inner.drop 8) :=
    .next hfront (show _ = some ([], _ :: _ :: inner.drop 8) from rfl) rfl rfl
  have hblock : HasBlock (significant unclosedBrackets) inner :=
    .inner .self (by decide) houter (show _ = some (inner, []) from rfl)
  have hl : l ∈ (cutLines inner).lines := by decide
  exact ⟨hc, fun h => hfirst ((hdyck _).1.mpr h), hparse, hlast, (herror e (.inr hlast)).2.2 rfl,
    hblock, hl, hsecond, hclosed inner hblock l hl _ hsecond⟩

end LetScript
