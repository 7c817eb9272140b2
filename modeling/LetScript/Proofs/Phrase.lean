import LetScript.Proofs.Bracket
import LetScript.Proofs.Reader
import LetScript.Proofs.Token

/-! The grammar of expressions. Reading accepts exactly what the grammar
derives, and builds the tree of the derivation. -/
namespace LetScript

/-- How strongly the parts of a phrase hold together. -/
inductive Level where
  | sum
  | product
  | unary
  | primary
deriving DecidableEq, Repr

/-- The grammar. A list of tokens is a phrase of a level with a syntax tree. -/
inductive Phrase : Level → List Token → Expr → Prop
  | number (x : Binary64) (p : Position) :
      Phrase .primary [.number x p] (.literal (.number x) p)
  | string (s : String) (p : Position) :
      Phrase .primary [.string s p] (.literal (.string s) p)
  | boolean (b : Bool) (p : Position) :
      Phrase .primary [.boolean b p] (.literal (.boolean b) p)
  | name (s : String) (p : Position) :
      Phrase .primary [.identifier s p] (.identifier ⟨s, p⟩)
  | group {o c : Token} {ts : List Token} {e : Expr} (ho : o.IsRaw .openParen)
      (hc : c.IsRaw .closeParen) (h : Phrase .sum ts e) : Phrase .primary (o :: (ts ++ [c])) e
  | call {f : Builtin} {o c : Token} {ts : List Token} {e : Expr} (p : Position)
      (hf : f.yieldsValue = true) (ho : o.IsRaw .openParen) (hc : c.IsRaw .closeParen)
      (h : Phrase .sum ts e) : Phrase .primary (.builtin f p :: o :: (ts ++ [c])) (.call f e p)
  | operand {ts : List Token} {e : Expr} (h : Phrase .primary ts e) : Phrase .unary ts e
  | signed {o : Operator} {ts : List Token} {e : Expr} (p : Position)
      (ho : o = .sum ∨ o = .subtract) (h : Phrase .unary ts e) :
      Phrase .unary (.operator o p :: ts) (.signed o e p)
  | factor {ts : List Token} {e : Expr} (h : Phrase .unary ts e) : Phrase .product ts e
  | times {o : Operator} {ls rs : List Token} {x y : Expr} (p : Position)
      (ho : o = .multiply ∨ o = .divide) (hl : Phrase .product ls x) (hr : Phrase .unary rs y) :
      Phrase .product (ls ++ .operator o p :: rs) (.binary o x y)
  | term {ts : List Token} {e : Expr} (h : Phrase .product ts e) : Phrase .sum ts e
  | plus {o : Operator} {ls rs : List Token} {x y : Expr} (p : Position)
      (ho : o = .sum ∨ o = .subtract) (hl : Phrase .sum ls x) (hr : Phrase .product rs y) :
      Phrase .sum (ls ++ .operator o p :: rs) (.binary o x y)

/-- The tokens that an expression is made of. -/
def Token.inExpression (t : Token) : Bool :=
  match t.kind, t.value with
  | .number, _ | .string, _ | .boolean, _ | .identifier, _ | .openParen, _ | .closeParen, _ => true
  | .operator, .operator o => o.isBinary
  | .builtin, .builtin f => f.yieldsValue
  | _, _ => false

namespace Phrase

variable {l : Level} {ts : List Token} {e : Expr}

theorem ne_nil (h : Phrase l ts e) : ts ≠ [] := by
  induction h <;> simp_all

theorem inExpression (h : Phrase l ts e) : ∀ t ∈ ts, t.inExpression = true := by
  have infixed {o : Operator} {p : Position} {ls rs : List Token} (ho : o.isBinary = true)
      (hl : ∀ t ∈ ls, t.inExpression = true) (hr : ∀ t ∈ rs, t.inExpression = true) :
      ∀ t ∈ ls ++ .operator o p :: rs, t.inExpression = true :=
    List.forall_mem_append.mpr ⟨hl, List.forall_mem_cons.mpr ⟨ho, hr⟩⟩
  have enclosed {o c : Token} {us : List Token} (ho : o.IsRaw .openParen)
      (hc : c.IsRaw .closeParen) (hu : ∀ t ∈ us, t.inExpression = true) :
      ∀ t ∈ o :: (us ++ [c]), t.inExpression = true := by
    have hto : o.inExpression = true := by simp [Token.inExpression, ho.kind]
    have htc : c.inExpression = true := by simp [Token.inExpression, hc.kind]
    exact List.forall_mem_cons.mpr
      ⟨hto, List.forall_mem_append.mpr ⟨hu, List.forall_mem_singleton.mpr htc⟩⟩
  induction h with
  | number x p => exact List.forall_mem_singleton.mpr rfl
  | string s p => exact List.forall_mem_singleton.mpr rfl
  | boolean b p => exact List.forall_mem_singleton.mpr rfl
  | name s p => exact List.forall_mem_singleton.mpr rfl
  | group ho hc h ih => exact enclosed ho hc ih
  | call p hf ho hc h ih => exact List.forall_mem_cons.mpr ⟨hf, enclosed ho hc ih⟩
  | operand h ih => exact ih
  | signed p ho h ih =>
    rcases ho with rfl | rfl
    · exact List.forall_mem_cons.mpr ⟨rfl, ih⟩
    · exact List.forall_mem_cons.mpr ⟨rfl, ih⟩
  | factor h ih => exact ih
  | times p ho hl hr ihl ihr => rcases ho with rfl | rfl <;> exact infixed rfl ihl ihr
  | term h ih => exact ih
  | plus p ho hl hr ihl ihr => rcases ho with rfl | rfl <;> exact infixed rfl ihl ihr

theorem balanced (h : Phrase l ts e) : Balanced .openParen .closeParen ts := by
  have operator {o : Operator} {p : Position} {us : List Token}
      (hu : Balanced .openParen .closeParen us) :
      Balanced .openParen .closeParen (.operator o p :: us) :=
    hu.cons (by simp [Token.operator]) (by simp [Token.operator])
  induction h with
  | number x p => rfl
  | string s p => rfl
  | boolean b p => rfl
  | name s p => rfl
  | group ho hc h ih => exact ih.enclose ho.kind hc.kind (by decide)
  | call p hf ho hc h ih =>
    exact (ih.enclose ho.kind hc.kind (by decide)).cons (by simp [Token.builtin])
      (by simp [Token.builtin])
  | operand h ih => exact ih
  | signed p ho h ih => exact operator ih
  | factor h ih => exact ih
  | times p ho hl hr ihl ihr => exact ihl.append (operator ihr)
  | term h ih => exact ih
  | plus p ho hl hr ihl ihr => exact ihl.append (operator ihr)

end Phrase

/-- Whether an operator comes next that binds at least as strongly as `least`. -/
def goesOn (least : Nat) : List Token → Bool
  | [] => false
  | t :: _ =>
    match t.infixPower? with
    | none => false
    | some (_, toLeft, _) => least ≤ toLeft

/-- No operator binds as strongly as the right side of a product. -/
theorem goesOn_of_four_le {least : Nat} (h : 4 ≤ least) (ts : List Token) :
    goesOn least ts = false := by
  cases ts with
  | nil => rfl
  | cons t ts =>
    obtain ⟨k, v, p⟩ := t
    cases v with
    | operator o =>
      cases o <;> simp only [goesOn, Token.infixPower?, Operator.power?, Option.map] <;> simp <;>
        omega
    | _ => rfl

theorem moreAt_of_goesOn_eq_false {least : Nat} {ts : List Token} (h : goesOn least ts = false)
    (stop : Position) (left : Expr) : moreAt stop least left ts = .ok (left, ts) := by
  cases ts with
  | nil => exact moreAt_nil stop least left
  | cons t ts =>
    rw [moreAt_cons]
    cases ht : t.infixPower? with
    | none => rfl
    | some b =>
      obtain ⟨o, toLeft, toRight⟩ := b
      have hlt : toLeft < least := by simpa [goesOn, ht] using h
      simp [hlt]

theorem moreAt_operator {o : Operator} {toLeft toRight least : Nat}
    (ho : o.power? = some (toLeft, toRight)) (hl : least ≤ toLeft) (stop p : Position)
    (left : Expr) (ts : List Token) :
    moreAt stop least left (.operator o p :: ts) =
      (aboveAt stop toRight ts).bind fun r => moreAt stop least (.binary o left r.1) r.2 := by
  have ht : (Token.operator o p).infixPower? = some (o, toLeft, toRight) := by
    simp [Token.infixPower?, Token.operator, ho]
  rw [moreAt_cons, ht]
  simp [Nat.not_lt.mpr hl]

namespace Phrase

/-- How a phrase of a level is read at the front of a list of tokens. -/
def Reads : Level → List Token → Expr → Prop
  | .primary, ts, e | .unary, ts, e =>
    ∀ stop rest, operandAt stop (ts ++ rest) = .ok (e, rest)
  | .product, ts, e =>
    ∀ stop least rest, least ≤ 3 → aboveAt stop least (ts ++ rest) = moreAt stop least e rest
  | .sum, ts, e =>
    ∀ stop least rest, least ≤ 1 → goesOn 2 rest = false →
      aboveAt stop least (ts ++ rest) = moreAt stop least e rest

variable {l : Level} {ts : List Token} {e : Expr}

theorem Reads.above (h : Reads .unary ts e) (stop : Position) (least : Nat) (rest : List Token) :
    aboveAt stop least (ts ++ rest) = moreAt stop least e rest := by
  rw [aboveAt_eq, h stop rest]
  rfl

theorem Reads.readExpr (h : Reads .sum ts e) (hne : ts ≠ []) (before : Position) :
    readExpr before ts = .ok e := by
  have ha := h (endPosition ts) 0 [] (by decide) rfl
  rw [List.append_nil, moreAt_nil] at ha
  rw [readExpr_eq, if_neg hne, ha]

/-- A group in front of anything else. -/
theorem Reads.groupAt (h : Reads .sum ts e) (hne : ts ≠ [])
    (hb : Balanced .openParen .closeParen ts) {o c : Token} (ho : o.IsRaw .openParen)
    (hc : c.IsRaw .closeParen) (stop : Position) (rest : List Token) :
    groupAt stop (o :: (ts ++ [c]) ++ rest) = .ok (e, rest) := by
  have hcut : cutAtParen (ts ++ c :: rest) = some (ts, rest) :=
    hb.cutAtClose (by decide) hc.kind rest
  simp only [List.cons_append, List.append_assoc, List.nil_append]
  rw [groupAt_cons, if_pos ho.kind, hcut]
  simp only [h.readExpr hne, Except.map]

theorem reads (h : Phrase l ts e) : Reads l ts e := by
  induction h with
  | number x p => exact fun stop rest => operandAt_cons stop _ rest
  | string s p => exact fun stop rest => operandAt_cons stop _ rest
  | boolean b p => exact fun stop rest => operandAt_cons stop _ rest
  | name s p => exact fun stop rest => operandAt_cons stop _ rest
  | group ho hc h ih =>
    intro stop rest
    obtain ⟨s, hs⟩ := ho.value
    rw [List.cons_append, operandAt_cons, hs, ho.kind]
    exact ih.groupAt h.ne_nil h.balanced ho hc stop rest
  | @call f _ _ _ _ p hf ho hc h ih =>
    intro stop rest
    have hg := ih.groupAt h.ne_nil h.balanced ho hc stop rest
    rw [List.cons_append, operandAt_cons]
    cases f with
    | println => cases hf
    | readInput => simp only [Token.builtin, hg, Except.map]
    | readEnv => simp only [Token.builtin, hg, Except.map]
  | operand h ih => exact ih
  | signed p ho h ih =>
    intro stop rest
    have ha := ih.above stop signPower rest
    rw [moreAt_of_goesOn_eq_false (goesOn_of_four_le (by decide) rest)] at ha
    rw [List.cons_append, operandAt_cons]
    rcases ho with rfl | rfl
    · simp only [Token.operator, ha, Except.map]
    · simp only [Token.operator, ha, Except.map]
  | factor h ih => exact fun stop least rest _ => ih.above stop least rest
  | @times o _ rs x y p ho hl hr ihl ihr =>
    intro stop least rest hle
    have ho : o.power? = some (3, 4) := by rcases ho with rfl | rfl <;> rfl
    have ha := ihr.above stop 4 rest
    rw [moreAt_of_goesOn_eq_false (goesOn_of_four_le (Nat.le_refl 4) rest)] at ha
    rw [List.append_assoc, ihl stop least _ hle, List.cons_append, moreAt_operator ho hle, ha]
    rfl
  | term h ih => exact fun stop least rest hle _ => ih stop least rest (by omega)
  | @plus o _ rs x y p ho hl hr ihl ihr =>
    intro stop least rest hle hstop
    have ho : o.power? = some (1, 2) := by rcases ho with rfl | rfl <;> rfl
    have hnext : goesOn 2 (.operator o p :: (rs ++ rest)) = false := by
      simp [goesOn, Token.infixPower?, Token.operator, ho]
    have ha := ihr stop 2 rest (by decide)
    rw [moreAt_of_goesOn_eq_false hstop] at ha
    rw [List.append_assoc, List.cons_append, ihl stop least _ hle hnext, moreAt_operator ho hle, ha]
    rfl

/-- The weakest phrase whose operators all bind at least as strongly as `least`. -/
def levelOf (least : Nat) : Level :=
  if least ≤ 1 then .sum else if least ≤ 3 then .product else .unary

/-- What is known of the tokens `used` that were read as `left`, when `rest`
comes next. A sum can not go on with a product. -/
def Read (least : Nat) (used : List Token) (left : Expr) (rest : List Token) : Prop :=
  Phrase .unary used left ∨ least ≤ 3 ∧ Phrase .product used left ∨
    least ≤ 1 ∧ Phrase .sum used left ∧ goesOn 2 rest = false

theorem Read.phrase {least : Nat} {used rest : List Token} {left : Expr}
    (h : Read least used left rest) : Phrase (levelOf least) used left := by
  unfold levelOf
  rcases h with h | ⟨hl, h⟩ | ⟨hl, h, -⟩
  · split
    · exact .term (.factor h)
    · split
      · exact .factor h
      · exact h
  · split
    · exact .term h
    · exact h
  · rw [if_pos hl]
    exact h

theorem Read.sum {least : Nat} {used rest : List Token} {left : Expr}
    (h : Read least used left rest) : Phrase .sum used left := by
  rcases h with h | ⟨hl, h⟩ | ⟨hl, h, -⟩
  · exact .term (.factor h)
  · exact .term h
  · exact h

/-- Before the sign of a product only a product can stand. -/
theorem Read.product {least : Nat} {used rest : List Token} {left : Expr}
    (h : Read least used left rest) (hg : goesOn 2 rest = true) : Phrase .product used left := by
  rcases h with h | ⟨hl, h⟩ | ⟨hl, h, hn⟩
  · exact .factor h
  · exact h
  · simp [hg] at hn

end Phrase

open Phrase

mutual

theorem groupAt_sound {stop : Position} {ts rest : List Token} {e : Expr}
    (hc : ∀ t ∈ ts, t.Consistent) (h : groupAt stop ts = .ok (e, rest)) :
    ∃ o c us, o.IsRaw .openParen ∧ c.IsRaw .closeParen ∧ ts = o :: (us ++ [c]) ++ rest ∧
      Phrase .sum us e := by
  match ts with
  | [] => simp at h
  | t :: ts =>
    rw [groupAt_cons] at h
    split at h
    · rename_i hk
      cases hcut : cutAtParen ts with
      | none => simp [hcut] at h
      | some r =>
        obtain ⟨us, more⟩ := r
        simp only [hcut, map_eq_ok, Prod.mk.injEq] at h
        obtain ⟨e', he, rfl, rfl⟩ := h
        have hlen := cutAtClose_length hcut
        obtain ⟨-, c, hck, rfl⟩ := eq_of_cutAtClose hcut
        have hcons := List.forall_mem_cons.mp hc
        have happ := List.forall_mem_append.mp hcons.2
        have hcc := List.forall_mem_cons.mp happ.2
        have hopen := hcons.1.isRaw hk (by decide)
        have hclose := hcc.1.isRaw hck (by decide)
        exact ⟨t, c, us, hopen, hclose, by simp, readExpr_sound happ.1 he⟩
    · simp at h
termination_by 4 * ts.length
decreasing_by
  simp only [List.length_cons]
  omega

theorem operandAt_sound {stop : Position} {ts rest : List Token} {e : Expr}
    (hc : ∀ t ∈ ts, t.Consistent) (h : operandAt stop ts = .ok (e, rest)) :
    ∃ us, ts = us ++ rest ∧ Phrase .unary us e := by
  match ts with
  | [] => simp at h
  | t :: ts =>
    have hcons := List.forall_mem_cons.mp hc
    have hkind := hcons.1.kind_eq
    obtain ⟨k, v, p⟩ := t
    rw [operandAt_cons] at h
    have single {u : Token} {e' : Expr} (hu : Phrase .primary [u] e')
        (he : (e', ts) = (e, rest)) : ∃ us, u :: ts = us ++ rest ∧ Phrase .unary us e := by
      cases he
      exact ⟨[u], rfl, .operand hu⟩
    have signed {o : Operator} (ho : o = .sum ∨ o = .subtract)
        (hs : ((aboveAt stop signPower ts).map fun r => (Expr.signed o r.1 p, r.2)) =
          .ok (e, rest)) :
        ∃ us, .operator o p :: ts = us ++ rest ∧ Phrase .unary us e := by
      obtain ⟨⟨e', more⟩, ha, he⟩ := map_eq_ok.mp hs
      cases he
      obtain ⟨us, rfl, hp, -⟩ := aboveAt_sound hcons.2 ha
      exact ⟨.operator o p :: us, rfl, .signed p ho hp⟩
    have called {f : Builtin} (hf : f.yieldsValue = true)
        (hs : ((groupAt stop ts).map fun r => (Expr.call f r.1 p, r.2)) = .ok (e, rest)) :
        ∃ us, .builtin f p :: ts = us ++ rest ∧ Phrase .unary us e := by
      obtain ⟨⟨e', more⟩, hg, he⟩ := map_eq_ok.mp hs
      cases he
      obtain ⟨o, c, us, ho, hcl, rfl, hp⟩ := groupAt_sound hcons.2 hg
      exact ⟨_, rfl, .operand (.call p hf ho hcl hp)⟩
    cases v with
    | number x =>
      subst hkind
      exact single (.number x p) (Except.ok.inj h)
    | string s =>
      subst hkind
      exact single (.string s p) (Except.ok.inj h)
    | boolean b =>
      subst hkind
      exact single (.boolean b p) (Except.ok.inj h)
    | operator o =>
      subst hkind
      cases o with
      | sum => exact signed (.inl rfl) h
      | subtract => exact signed (.inr rfl) h
      | multiply => cases h
      | divide => cases h
      | equal => cases h
    | builtin f =>
      subst hkind
      cases f with
      | println => cases h
      | readInput => exact called rfl h
      | readEnv => exact called rfl h
    | typeName ty =>
      subst hkind
      cases h
    | raw s =>
      cases k with
      | identifier => exact single (.name s p) (Except.ok.inj h)
      | openParen =>
        obtain ⟨o, c, us, ho, hcl, hts, hp⟩ := groupAt_sound hc h
        exact ⟨_, hts, .operand (.group ho hcl hp)⟩
      | _ => cases h
termination_by 4 * ts.length + 1
decreasing_by
  all_goals simp only [List.length_cons]
  all_goals omega

theorem aboveAt_sound {stop : Position} {least : Nat} {ts rest : List Token} {e : Expr}
    (hc : ∀ t ∈ ts, t.Consistent) (h : aboveAt stop least ts = .ok (e, rest)) :
    ∃ us, ts = us ++ rest ∧ Phrase (levelOf least) us e ∧ goesOn least rest = false := by
  rw [aboveAt_eq, bind_eq_ok] at h
  obtain ⟨⟨left, more⟩, hl, hm⟩ := h
  obtain ⟨us, hts, hu⟩ := operandAt_sound hc hl
  have hlen : more.length ≤ ts.length := by simp [hts]
  have hmore : ∀ t ∈ more, t.Consistent := fun t ht => hc t (by simp [hts, ht])
  obtain ⟨vs, hvs, hp, hg⟩ := moreAt_sound hmore (.inl hu) hm
  exact ⟨us ++ vs, by rw [hts, hvs, List.append_assoc], hp, hg⟩
termination_by 4 * ts.length + 2
decreasing_by
  · omega
  · omega

theorem moreAt_sound {stop : Position} {least : Nat} {left e : Expr} {used ts rest : List Token}
    (hc : ∀ t ∈ ts, t.Consistent) (hr : Read least used left ts)
    (h : moreAt stop least left ts = .ok (e, rest)) :
    ∃ us, ts = us ++ rest ∧ Phrase (levelOf least) (used ++ us) e ∧ goesOn least rest = false := by
  by_cases hg : goesOn least ts = false
  · rw [moreAt_of_goesOn_eq_false hg] at h
    cases h
    exact ⟨[], rfl, by simpa using hr.phrase, hg⟩
  · match ts with
    | [] => exact absurd rfl hg
    | ⟨k, v, p⟩ :: ts =>
      have hcons := List.forall_mem_cons.mp hc
      have hkind := hcons.1.kind_eq
      cases v with
      | operator o =>
        have hkind : k = .operator := hkind
        subst hkind
        have step {toLeft toRight : Nat} (ho : o.power? = some (toLeft, toRight))
            (hle : least ≤ toLeft)
            (hnew : ∀ us y more, Phrase (levelOf toRight) us y → goesOn toRight more = false →
              Read least (used ++ .operator o p :: us) (.binary o left y) more) :
            ∃ us, .operator o p :: ts = us ++ rest ∧ Phrase (levelOf least) (used ++ us) e ∧
              goesOn least rest = false := by
          have hb : moreAt stop least left (.operator o p :: ts) = .ok (e, rest) := h
          rw [moreAt_operator ho hle, bind_eq_ok] at hb
          obtain ⟨⟨y, more⟩, ha, hm⟩ := hb
          obtain ⟨us, hts, hp, hstop⟩ := aboveAt_sound hcons.2 ha
          have hlen : more.length ≤ ts.length := by simp [hts]
          have hmore : ∀ t ∈ more, t.Consistent := fun t ht => hcons.2 t (by simp [hts, ht])
          obtain ⟨vs, hvs, hq, hend⟩ := moreAt_sound hmore (hnew us y more hp hstop) hm
          exact ⟨.operator o p :: (us ++ vs), by simp [hts, hvs], by simpa using hq, hend⟩
        cases o with
        | sum =>
          have hle : least ≤ 1 := by simpa [goesOn, Token.infixPower?, Operator.power?] using hg
          exact step rfl hle fun us y more hy hmore =>
            .inr (.inr ⟨hle, .plus p (.inl rfl) hr.sum hy, hmore⟩)
        | subtract =>
          have hle : least ≤ 1 := by simpa [goesOn, Token.infixPower?, Operator.power?] using hg
          exact step rfl hle fun us y more hy hmore =>
            .inr (.inr ⟨hle, .plus p (.inr rfl) hr.sum hy, hmore⟩)
        | multiply =>
          have hle : least ≤ 3 := by simpa [goesOn, Token.infixPower?, Operator.power?] using hg
          exact step rfl hle fun us y more hy _ =>
            .inr (.inl ⟨hle, .times p (.inl rfl) (hr.product rfl) hy⟩)
        | divide =>
          have hle : least ≤ 3 := by simpa [goesOn, Token.infixPower?, Operator.power?] using hg
          exact step rfl hle fun us y more hy _ =>
            .inr (.inl ⟨hle, .times p (.inr rfl) (hr.product rfl) hy⟩)
        | equal => exact absurd rfl hg
      | _ => exact absurd rfl hg
termination_by 4 * ts.length
decreasing_by
  all_goals simp only [List.length_cons]
  all_goals omega

theorem readExpr_sound {before : Position} {ts : List Token} {e : Expr}
    (hc : ∀ t ∈ ts, t.Consistent) (h : readExpr before ts = .ok e) : Phrase .sum ts e := by
  rw [readExpr_eq] at h
  split at h
  · simp at h
  · cases ha : aboveAt (endPosition ts) 0 ts with
    | error err => simp [ha] at h
    | ok r =>
      obtain ⟨e', rest⟩ := r
      cases rest with
      | cons t more => simp [ha] at h
      | nil =>
        obtain ⟨us, hus, hp, -⟩ := aboveAt_sound hc ha
        simp only [ha, Except.ok.injEq] at h
        subst h
        simpa [hus, levelOf] using hp
termination_by 4 * ts.length + 3

end
/-- Reading accepts exactly the sums of the grammar. -/
theorem readExpr_eq_ok_iff {ts : List Token} (hc : ∀ t ∈ ts, t.Consistent) (before : Position)
    (e : Expr) : readExpr before ts = .ok e ↔ Phrase .sum ts e :=
  ⟨readExpr_sound hc, fun h => h.reads.readExpr h.ne_nil before⟩

/-- The signs of products and quotients. -/
def Operator.isTight (o : Operator) : Bool := o == multiply || o == divide

/-- The tree of three operands with two operators between them. -/
def grouping (o o' : Operator) (x y z : Expr) : Expr :=
  if !o.isTight && o'.isTight then .binary o x (.binary o' y z) else .binary o' (.binary o x y) z

namespace Phrase

variable {o o' : Operator} {as bs cs : List Token} {x y z : Expr}

theorem joined (ho : o.isBinary = true) (hx : Phrase .unary as x) (p : Position)
    (hy : Phrase .unary bs y) : Phrase .sum (as ++ .operator o p :: bs) (.binary o x y) := by
  cases o with
  | sum => exact .plus p (.inl rfl) (.term (.factor hx)) (.factor hy)
  | subtract => exact .plus p (.inr rfl) (.term (.factor hx)) (.factor hy)
  | multiply => exact .term (.times p (.inl rfl) (.factor hx) hy)
  | divide => exact .term (.times p (.inr rfl) (.factor hx) hy)
  | equal => cases ho

/-- Products and quotients go first, and otherwise the operator on the left. -/
theorem joined_twice (ho : o.isBinary = true) (ho' : o'.isBinary = true) (hx : Phrase .unary as x)
    (p : Position) (hy : Phrase .unary bs y) (q : Position) (hz : Phrase .unary cs z) :
    Phrase .sum (as ++ .operator o p :: (bs ++ .operator o' q :: cs)) (grouping o o' x y z) := by
  have sums (hs : o' = .sum ∨ o' = .subtract) :
      Phrase .sum (as ++ .operator o p :: (bs ++ .operator o' q :: cs))
        (.binary o' (.binary o x y) z) := by
    simpa using Phrase.plus q hs (hx.joined ho p hy) (.factor hz)
  have products (hs : o = .sum ∨ o = .subtract) (ht : o' = .multiply ∨ o' = .divide) :
      Phrase .sum (as ++ .operator o p :: (bs ++ .operator o' q :: cs))
        (.binary o x (.binary o' y z)) :=
    .plus p hs (.term (.factor hx)) (.times q ht (.factor hy) hz)
  have chain (hs : o = .multiply ∨ o = .divide) (ht : o' = .multiply ∨ o' = .divide) :
      Phrase .sum (as ++ .operator o p :: (bs ++ .operator o' q :: cs))
        (.binary o' (.binary o x y) z) := by
    simpa using Phrase.term (.times q ht (.times p hs (.factor hx) hy) hz)
  cases o' with
  | sum => cases o <;> exact sums (.inl rfl)
  | subtract => cases o <;> exact sums (.inr rfl)
  | multiply =>
    cases o with
    | sum => exact products (.inl rfl) (.inl rfl)
    | subtract => exact products (.inr rfl) (.inl rfl)
    | multiply => exact chain (.inl rfl) (.inl rfl)
    | divide => exact chain (.inr rfl) (.inl rfl)
    | equal => cases ho
  | divide =>
    cases o with
    | sum => exact products (.inl rfl) (.inr rfl)
    | subtract => exact products (.inr rfl) (.inr rfl)
    | multiply => exact chain (.inl rfl) (.inr rfl)
    | divide => exact chain (.inr rfl) (.inr rfl)
    | equal => cases ho
  | equal => cases ho'

end Phrase

/-- Reading an expression accepts exactly what the grammar derives and builds
its tree. So products and quotients bind tighter than sums and differences,
operators of equal strength group to the left, a sign binds tighter than any
operator between operands, and nothing else occurs in an expression. -/
theorem readExpr_exact (before : Position) {ts : List Token} (hc : ∀ t ∈ ts, t.Consistent) :
    (∀ e, readExpr before ts = .ok e ↔ Phrase .sum ts e) ∧
    (∀ e, readExpr before ts = .ok e → ∀ t ∈ ts, t.inExpression = true) ∧
    (∀ as bs cs x y z o o' p q, Phrase .unary as x → Phrase .unary bs y → Phrase .unary cs z →
      o.isBinary = true → o'.isBinary = true →
      ts = as ++ .operator o p :: (bs ++ .operator o' q :: cs) →
      readExpr before ts = .ok (grouping o o' x y z)) ∧
    (∀ as bs x y s o p q, Phrase .unary as x → Phrase .unary bs y →
      s = .sum ∨ s = .subtract → o.isBinary = true →
      ts = .operator s p :: as ++ .operator o q :: bs →
      readExpr before ts = .ok (.binary o (.signed s x p) y)) := by
  have hiff := readExpr_eq_ok_iff hc before
  refine ⟨hiff, fun e he => ((hiff e).mp he).inExpression, ?_, ?_⟩
  · intro as bs cs x y z o o' p q hx hy hz ho ho' hts
    rw [hiff, hts]
    exact hx.joined_twice ho ho' p hy q hz
  · intro as bs x y s o p q hx hy hs ho hts
    rw [hiff, hts]
    exact (hx.signed p hs).joined ho q hy

/-- The tokens of `-a+2*(b-c)`, one column each. -/
def signedSum : List Token :=
  [.operator .subtract ⟨1, 0⟩, .identifier "a" ⟨1, 1⟩, .operator .sum ⟨1, 2⟩,
   .number (.ofDigits ['2'] []) ⟨1, 3⟩, .operator .multiply ⟨1, 4⟩, .raw .openParen "(" ⟨1, 5⟩,
   .identifier "b" ⟨1, 6⟩, .operator .subtract ⟨1, 7⟩, .identifier "c" ⟨1, 8⟩,
   .raw .closeParen ")" ⟨1, 9⟩]

def signedSumTree : Expr :=
  .binary .sum (.signed .subtract (.identifier ⟨"a", ⟨1, 1⟩⟩) ⟨1, 0⟩)
    (.binary .multiply (.literal (.number (.ofDigits ['2'] [])) ⟨1, 3⟩)
      (.binary .subtract (.identifier ⟨"b", ⟨1, 6⟩⟩) (.identifier ⟨"c", ⟨1, 8⟩⟩)))

theorem readExpr_exact_signedSum :
    (∀ t ∈ signedSum, t.Consistent) ∧ readExpr .start signedSum = .ok signedSumTree := by
  have hc : ∀ t ∈ signedSum, t.Consistent := by decide
  have a : Phrase .unary _ _ := .signed ⟨1, 0⟩ (.inr rfl) (.operand (.name "a" ⟨1, 1⟩))
  have two : Phrase .unary _ _ := .operand (.number (.ofDigits ['2'] []) ⟨1, 3⟩)
  have b : Phrase .unary _ _ := .operand (.name "b" ⟨1, 6⟩)
  have c : Phrase .unary _ _ := .operand (.name "c" ⟨1, 8⟩)
  have g : Phrase .unary _ _ := .operand (.group (Token.isRaw_raw _ "(" ⟨1, 5⟩)
    (Token.isRaw_raw _ ")" ⟨1, 9⟩) (b.joined (o := .subtract) rfl ⟨1, 7⟩ c))
  exact ⟨hc, (readExpr_exact .start hc).2.2.1 _ _ _ _ _ _ .sum .multiply ⟨1, 2⟩ ⟨1, 4⟩ a two g
    rfl rfl rfl⟩

end LetScript
