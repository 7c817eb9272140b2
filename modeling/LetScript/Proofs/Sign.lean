import LetScript.Proofs.Breaks
import LetScript.Proofs.Inventory
import LetScript.Style.Check

/-! Signs, and operators between two operands. Reading an expression tells them apart by its
grammar, and the rule on spaces around operators by the token before the operator. Main
statement: both give the same answer on every program. -/
namespace LetScript

/-! ### Operators of a tree -/

/-- The operators of an expression in the order of the text, each with whether it stands between
two operands. -/
def Expr.operators : Expr → List (Operator × Bool)
  | .binary o left right => left.operators ++ (o, true) :: right.operators
  | .signed o inner _ => (o, false) :: inner.operators
  | .call _ argument _ => argument.operators
  | _ => []

/-- The operator on values that a token stands for. -/
def Token.valueOperator? (t : Token) : Option Operator :=
  match t.value with
  | .operator o => if o.isBinary then some o else none
  | _ => none

theorem Token.valueOperator?_operator {o : Operator} (ho : o.isBinary) (p : Position) :
    (Token.operator o p).valueOperator? = some o :=
  if_pos ho

theorem Token.valueOperator?_of_isFrame {t : Token} (h : t.isFrame) : t.valueOperator? = none := by
  unfold Token.isFrame at h
  unfold Token.valueOperator?
  split <;> simp_all

/-! ### Operators among tokens without trivia -/

/-- The kind of the last token, or the kind before all of them if there are none. -/
def lastKind (prior : Option Kind) : List Token → Option Kind
  | [] => prior
  | t :: ts => lastKind (some t.kind) ts

@[simp] theorem lastKind_append (prior : Option Kind) (as bs : List Token) :
    lastKind prior (as ++ bs) = lastKind (lastKind prior as) bs := by
  induction as generalizing prior with
  | nil => rfl
  | cons t as ih => exact ih (some t.kind)

theorem lastKind_none (ts : List Token) : lastKind none ts = ts.getLast?.map Token.kind := by
  induction ts using List.reverseRecOn with
  | nil => rfl
  | append_singleton ts t _ => simp [lastKind]

/-- The operators of a list of tokens, each with whether an operand ends right before it. -/
def flagged (prior : Option Kind) : List Token → List (Operator × Bool)
  | [] => []
  | t :: ts =>
    (t.valueOperator?.map fun o => (o, prior.any Padding.endsOperand)).toList ++
      flagged (some t.kind) ts

@[simp] theorem flagged_append (prior : Option Kind) (as bs : List Token) :
    flagged prior (as ++ bs) = flagged prior as ++ flagged (lastKind prior as) bs := by
  induction as generalizing prior with
  | nil => rfl
  | cons t as ih => simp [flagged, lastKind, ih]

theorem flagged_frame {t : Token} (ht : t.isFrame) (prior : Option Kind) (ts : List Token) :
    flagged prior (t :: ts) = flagged (some t.kind) ts := by
  rw [flagged, Token.valueOperator?_of_isFrame ht]
  rfl

theorem flagged_operator {o : Operator} (ho : o.isBinary) (p : Position) (prior : Option Kind)
    (ts : List Token) :
    flagged prior (.operator o p :: ts) =
      (o, prior.any Padding.endsOperand) :: flagged (some .operator) ts := by
  rw [flagged, Token.valueOperator?_operator ho]
  rfl

namespace Phrase

variable {l : Level} {ts : List Token} {e : Expr}

theorem endsOperand (h : Phrase l ts e) (prior : Option Kind) :
    (lastKind prior ts).any Padding.endsOperand = true := by
  induction h generalizing prior with
  | number | string | boolean | name => rfl
  | group _ hc | call _ _ _ hc =>
    simp [lastKind, hc.kind, Padding.endsOperand]
  | operand _ ih | factor _ ih | term _ ih => exact ih prior
  | signed p _ _ ih => exact ih _
  | times p _ _ _ _ ihr | plus p _ _ _ _ ihr =>
    rw [lastKind_append]
    exact ihr _

theorem flagged_enclosed {o c : Token} (ho : o.IsRaw .openParen) (hc : c.IsRaw .closeParen)
    (ih : ∀ {prior : Option Kind}, prior.any Padding.endsOperand = false →
      flagged prior ts = e.operators) (prior : Option Kind) :
    flagged prior (o :: (ts ++ [c])) = e.operators := by
  have hopen : (some o.kind).any Padding.endsOperand = false := by rw [ho.kind]; rfl
  rw [flagged_frame ho.isFrame, flagged_append, ih hopen, flagged_frame hc.isFrame, flagged,
    List.append_nil]

theorem flagged_infix {o : Operator} {ls rs : List Token} {x y : Expr} {prior : Option Kind}
    (ho : o.isBinary) (p : Position) (hl : Phrase l ls x) (hx : flagged prior ls = x.operators)
    (hy : ∀ {prior : Option Kind}, prior.any Padding.endsOperand = false →
      flagged prior rs = y.operators) :
    flagged prior (ls ++ .operator o p :: rs) = (Expr.binary o x y).operators := by
  rw [flagged_append, flagged_operator ho, hx, hl.endsOperand, hy rfl]
  rfl

/-- In a phrase that begins where no operand ends, the operators right behind an operand are
those that the tree has between two operands. -/
theorem flagged_eq (h : Phrase l ts e) {prior : Option Kind}
    (hprior : prior.any Padding.endsOperand = false) : flagged prior ts = e.operators := by
  induction h generalizing prior with
  | number | string | boolean | name => rfl
  | group ho hc _ ih => exact flagged_enclosed ho hc ih prior
  | call p _ ho hc _ ih => exact flagged_enclosed ho hc ih _
  | operand _ ih | factor _ ih | term _ ih => exact ih hprior
  | signed p ho _ ih =>
    rw [flagged_operator (by rcases ho with rfl | rfl <;> rfl), hprior, ih rfl]
    rfl
  | times p ho hl _ ihl ihr | plus p ho hl _ ihl ihr =>
    exact flagged_infix (by rcases ho with rfl | rfl <;> rfl) p hl (ihl hprior) ihr

end Phrase

theorem Carries.flagged_eq {ts : List Token} {es : List Expr} (h : Carries ts es)
    (prior : Option Kind) : flagged prior ts = es.flatMap Expr.operators := by
  induction h generalizing prior with
  | nil => rfl
  | frame ht _ ih => rw [flagged_frame ht, ih]
  | @value u us ts e es hu hend hp _ ih =>
    have hphrase : flagged (some u.kind) us = e.operators := hp.flagged_eq hend
    rw [List.cons_append, flagged_frame hu, flagged_append, hphrase, ih, List.flatMap_cons]
  | @call f o c us ts e es p ho hc hp _ ih =>
    have hcall : flagged prior (.builtin f p :: o :: (us ++ [c])) = e.operators :=
      Phrase.flagged_enclosed ho hc hp.flagged_eq (some .builtin)
    rw [flagged_append, hcall, ih, List.flatMap_cons]
    rfl

/-! ### Operators by index -/

/-- Whether an operand ends with the last token before the index that is not trivia. -/
def followsOperand (ts : List Token) (i : Nat) : Bool :=
  (prevSignificant? ts i).any fun j => ts[j]?.any fun t => Padding.endsOperand t.kind

/-- The operators on values of a list of tokens, each with whether it follows an operand. -/
def operatorTokens (ts : List Token) : List (Operator × Bool) :=
  ts.zipIdx.filterMap fun (t, i) => t.valueOperator?.map fun o => (o, followsOperand ts i)

theorem prevSignificant?_succ (front back : List Token) (t : Token) :
    prevSignificant? (front ++ t :: back) (front.length + 1) =
      if t.isTrivia then prevSignificant? (front ++ t :: back) front.length
      else some front.length := by
  have htake : (front ++ t :: back).take (front.length + 1) = front ++ [t] := by
    rw [← List.singleton_append, ← List.append_assoc, List.take_left' (by simp)]
  rw [prevSignificant?, prevSignificant?, htake, List.take_left, List.reverse_append,
    List.reverse_singleton, List.singleton_append, List.findIdx?_cons]
  by_cases ht : t.isTrivia
  · simp only [ht, Bool.not_true, Bool.false_eq_true, if_false, if_true, Option.map_map]
    congr 1
    funext k
    simp only [Function.comp_apply]
    omega
  · simp [ht]

theorem lastKind_significant (front : List Token) (t : Token) :
    lastKind none (significant (front ++ [t])) =
      if t.isTrivia then lastKind none (significant front) else some t.kind := by
  rw [significant_append, lastKind_append]
  by_cases ht : t.isTrivia <;> simp [significant, ht, lastKind]

@[simp] theorem followsOperand_append (front back : List Token) :
    followsOperand (front ++ back) front.length =
      (lastKind none (significant front)).any Padding.endsOperand := by
  -- From the right, since an index looks back.
  induction front using List.reverseRecOn generalizing back with
  | nil => rfl
  | append_singleton front t ih =>
    rw [List.append_assoc, List.length_append, List.length_singleton, List.singleton_append,
      lastKind_significant, followsOperand, prevSignificant?_succ]
    by_cases ht : t.isTrivia
    · rw [if_pos ht, if_pos ht]
      exact ih (t :: back)
    · rw [if_neg ht, if_neg ht]
      simp

theorem Token.valueOperator?_of_isTrivia {t : Token} (hc : t.Consistent) (ht : t.isTrivia) :
    t.valueOperator? = none := by
  obtain ⟨s, hs⟩ := hc.value_of_isTrivia ht
  simp [Token.valueOperator?, hs]

theorem operatorTokens_from {ts : List Token} (hc : ∀ t ∈ ts, t.Consistent) (front : List Token) :
    (ts.zipIdx front.length).filterMap (fun (t, i) =>
        t.valueOperator?.map fun o => (o, followsOperand (front ++ ts) i)) =
      flagged (lastKind none (significant front)) (significant ts) := by
  induction ts generalizing front with
  | nil => rfl
  | cons t ts ih =>
    have ih := ih (fun u hu => hc u (List.mem_cons_of_mem _ hu)) (front ++ [t])
    rw [List.length_append, List.length_singleton, List.append_assoc, List.singleton_append,
      lastKind_significant] at ih
    simp only [List.zipIdx_cons, List.filterMap_cons, followsOperand_append, ih]
    by_cases ht : t.isTrivia
    · simp [significant, ht, Token.valueOperator?_of_isTrivia (hc t List.mem_cons_self) ht]
    · cases ho : t.valueOperator? <;> simp [significant, ht, flagged, ho]

/-- The operators of a consistent list of tokens can be told from the tokens that are not
trivia. -/
theorem operatorTokens_eq {ts : List Token} (hc : ∀ t ∈ ts, t.Consistent) :
    operatorTokens ts = flagged none (significant ts) :=
  operatorTokens_from hc []

/-! ### Spaces around the operators between two operands -/

/-- Whether the token at an index is an operator behind an operand. -/
def binaryAt (ts : List Token) (i : Nat) : Bool :=
  (ts[i]?.bind Token.valueOperator?).isSome && followsOperand ts i

def solidAt (ts : List Token) (i : Nat) : Bool := ts[i]?.any fun t => !t.isTrivia

/-- Whether the token at an index touches the one before it, and one of the two is an operator
behind an operand. -/
def spaceBefore (ts : List Token) : Nat → Bool
  | 0 => false
  | i + 1 => solidAt ts i && solidAt ts (i + 1) && (binaryAt ts i || binaryAt ts (i + 1))

theorem Padding.isSome_binaryOperator (prior : Option Kind) (t : Token) :
    (Padding.binaryOperator prior t).isSome =
      (t.valueOperator?.isSome && prior.any Padding.endsOperand) := by
  unfold Padding.binaryOperator Token.valueOperator?
  cases t.value with
  | operator o =>
    dsimp only
    cases o.isBinary <;> cases prior.any Padding.endsOperand <;> rfl
  | _ => rfl

@[simp] theorem binaryAt_append (front back : List Token) (t : Token) :
    binaryAt (front ++ t :: back) front.length =
      (Padding.binaryOperator (lastKind none (significant front)) t).isSome := by
  rw [binaryAt, followsOperand_append, Padding.isSome_binaryOperator]
  simp

@[simp] theorem solidAt_append (front back : List Token) (t : Token) :
    solidAt (front ++ t :: back) front.length = !t.isTrivia := by
  simp [solidAt]

theorem Padding.isTrivia_of_isSome {prior : Option Kind} {t : Token} (hc : t.Consistent)
    (h : (Padding.binaryOperator prior t).isSome) : t.isTrivia = false := by
  by_contra ht
  rw [Padding.isSome_binaryOperator, Token.valueOperator?_of_isTrivia hc (by simpa using ht)] at h
  simp at h

/-- Between an operator behind an operand and a neighbour that touches it there is to be a
space. -/
theorem needsSpace_binaryOperator {front back : List Token} {u t : Token} (hu : u.Consistent)
    (ht : t.Consistent) :
    Padding.needsSpace ⟨true, true⟩
        ⟨u, Padding.binaryOperator (lastKind none (significant front)) u⟩
        ⟨t, Padding.binaryOperator (lastKind none (significant (front ++ [u]))) t⟩ =
      spaceBefore (front ++ u :: t :: back) (front.length + 1) := by
  have hsolid := solidAt_append (front ++ [u]) back t
  have hbinary := binaryAt_append (front ++ [u]) back t
  rw [List.append_assoc, List.length_append, List.length_singleton,
    List.singleton_append] at hsolid hbinary
  rw [spaceBefore, hsolid, hbinary, solidAt_append, binaryAt_append, Padding.needsSpace]
  have hleft := @Padding.isTrivia_of_isSome (lastKind none (significant front)) u hu
  have hright := @Padding.isTrivia_of_isSome (lastKind none (significant (front ++ [u]))) t ht
  grind

theorem spread_binaryOperator {ts : List Token} {u : Token} {front : List Token}
    (hc : ∀ t ∈ u :: ts, t.Consistent) :
    Padding.spread ⟨true, true⟩
        (Padding.markFrom Padding.binaryOperator (lastKind none (significant front)) (u :: ts)) =
      u :: (ts.zipIdx (front.length + 1)).flatMap fun (t, i) =>
        if spaceBefore (front ++ u :: ts) i then [.space t.position, t] else [t] := by
  induction ts generalizing u front with
  | nil => rfl
  | cons t ts ih =>
    have ⟨hu, hts⟩ := List.forall_mem_cons.mp hc
    have ih := @ih t (front ++ [u]) hts
    have hneeds := @needsSpace_binaryOperator front ts u t hu (hts t List.mem_cons_self)
    rw [Padding.markFrom, ← lastKind_significant, Padding.markFrom, Padding.spread, hneeds,
      ← Padding.markFrom, ih]
    simp only [List.length_append, List.length_singleton, List.append_assoc, List.singleton_append,
      List.zipIdx_cons, List.flatMap_cons]
    split <;> rfl

/-- The rule on spaces around operators puts a space before exactly the tokens that touch the
one before them where one of the two is an operator behind an operand. -/
theorem fix_spaceAroundOperator {ts : List Token} (hc : ∀ t ∈ ts, t.Consistent) :
    StyleRule.spaceAroundOperator.fix ts = ts.zipIdx.flatMap fun (t, i) =>
      if spaceBefore ts i then [.space t.position, t] else [t] := by
  cases ts with
  | nil => rfl
  | cons u ts => exact @spread_binaryOperator ts u [] hc

/-- The operators of a program come in its tokens in the same order, and those that the tree has
between two operands are the ones behind an operand. Around these, and around no sign, the rule
on spaces puts them where they are missing. -/
theorem parse_operators {ts : List Token} {ss : List Statement} (hc : ∀ t ∈ ts, t.Consistent)
    (h : parse ts = .ok ss) :
    (blockExpressions ss).flatMap Expr.operators = operatorTokens ts ∧
      StyleRule.spaceAroundOperator.fix ts = ts.zipIdx.flatMap fun (t, i) =>
        if spaceBefore ts i then [.space t.position, t] else [t] := by
  refine ⟨?_, fix_spaceAroundOperator hc⟩
  rw [operatorTokens_eq hc, (carries_of_parse hc h).flagged_eq]

/-- The tokens of `if(-1*a){b=(c)- -readInput(+c);}`. -/
def nestedSigns : List Token :=
  [.raw .ifWord "if" ⟨1, 0⟩, .raw .openParen "(" ⟨1, 2⟩, .operator .subtract ⟨1, 3⟩,
   .number (.ofDigits ['1'] []) ⟨1, 4⟩, .operator .multiply ⟨1, 5⟩, .identifier "a" ⟨1, 6⟩,
   .raw .closeParen ")" ⟨1, 7⟩, .raw .openBrace "\x7b" ⟨1, 8⟩, .identifier "b" ⟨1, 9⟩,
   .operator .equal ⟨1, 10⟩, .raw .openParen "(" ⟨1, 11⟩, .identifier "c" ⟨1, 12⟩,
   .raw .closeParen ")" ⟨1, 13⟩, .operator .subtract ⟨1, 14⟩, .space ⟨1, 15⟩,
   .operator .subtract ⟨1, 16⟩, .builtin .readInput ⟨1, 17⟩, .raw .openParen "(" ⟨1, 26⟩,
   .operator .sum ⟨1, 27⟩, .identifier "c" ⟨1, 28⟩, .raw .closeParen ")" ⟨1, 29⟩,
   .raw .semicolon ";" ⟨1, 30⟩, .raw .closeBrace "\x7d" ⟨1, 31⟩]

theorem parse_operators_nestedSigns :
    (∀ t ∈ nestedSigns, t.Consistent) ∧ ∃ ss, parse nestedSigns = .ok ss ∧
      (blockExpressions ss).flatMap Expr.operators =
        [(.subtract, false), (.multiply, true), (.subtract, true), (.subtract, false),
         (.sum, false)] ∧
      String.ofList (spell (StyleRule.spaceAroundOperator.fix nestedSigns)) =
        "if(-1 * a)\x7bb=(c) - -readInput(+c);\x7d" := by
  have hc : ∀ t ∈ nestedSigns, t.Consistent := by decide
  obtain ⟨ss, h⟩ := exists_of_isOk (show (parse nestedSigns).isOk by decide +kernel)
  obtain ⟨hoperators, hfix⟩ := parse_operators hc h
  refine ⟨hc, ss, h, hoperators.trans (by decide +kernel), ?_⟩
  rw [hfix]
  decide +kernel

end LetScript
