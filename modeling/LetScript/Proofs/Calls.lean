import LetScript.Proofs.Braces
import LetScript.Proofs.Inventory
import LetScript.Proofs.Recovery
import LetScript.Style.Check

/-! The calls of a program. A call of the syntax tree is a function in the tokens with
parentheses behind it, and each function in the tokens is such a call. Main statement: the rules
on simple arguments report a call of the tree unless a single name or literal stands between its
parentheses. -/
namespace LetScript

structure Call where
  function : Builtin
  argument : Expr
  position : Position

/-- The calls of an expression, each before those in its argument. -/
def Expr.calls : Expr → List Call
  | .binary _ left right => left.calls ++ right.calls
  | .signed _ inner _ => inner.calls
  | .call f argument p => ⟨f, argument, p⟩ :: argument.calls
  | _ => []

def blockCalls (ss : List Statement) : List Call := (blockExpressions ss).flatMap Expr.calls

namespace Call

def token (c : Call) : Token := .builtin c.function c.position

/-- The call stands in a list of tokens without trivia, with `inside` between its parentheses. -/
def In (c : Call) (us inside : List Token) : Prop :=
  ∃ front o q back, us = front ++ c.token :: o :: (inside ++ q :: back) ∧ o.kind = .openParen ∧
    q.kind = .closeParen ∧ Phrase .sum inside c.argument

theorem In.mono {c : Call} {us inside : List Token} (h : c.In us inside) (as bs : List Token) :
    c.In (as ++ us ++ bs) inside := by
  obtain ⟨front, o, q, back, rfl, ho, hq, hp⟩ := h
  exact ⟨as ++ front, o, q, back ++ bs, by simp, ho, hq, hp⟩

end Call

/-! ### Functions in the tokens -/

/-- The functions among tokens without trivia are those of the calls. -/
structure Lists (us : List Token) (cs : List Call) : Prop where
  stands : ∀ c ∈ cs, ∃ inside, c.In us inside
  found : ∀ t ∈ us, ∀ f, t.isBuiltin f → ∃ c ∈ cs, c.function = f ∧ c.position = t.position

namespace Lists

theorem nil : Lists [] [] where
  stands _ h := nomatch h
  found _ h := nomatch h

theorem append {as bs : List Token} {xs ys : List Call} (ha : Lists as xs) (hb : Lists bs ys) :
    Lists (as ++ bs) (xs ++ ys) where
  stands c hc := by
    rcases List.mem_append.mp hc with hc | hc
    · obtain ⟨inside, h⟩ := ha.stands c hc
      exact ⟨inside, by simpa using h.mono [] bs⟩
    · obtain ⟨inside, h⟩ := hb.stands c hc
      exact ⟨inside, by simpa using h.mono as []⟩
  found t ht f hf := by
    rcases List.mem_append.mp ht with ht | ht
    · obtain ⟨c, hc, h⟩ := ha.found t ht f hf
      exact ⟨c, List.mem_append_left _ hc, h⟩
    · obtain ⟨c, hc, h⟩ := hb.found t ht f hf
      exact ⟨c, List.mem_append_right _ hc, h⟩

/-- A token that is no function. -/
theorem other {t : Token} (ht : ∀ f, t.isBuiltin f = false) : Lists [t] [] where
  stands _ h := nomatch h
  found u hu f hf := by
    rw [List.mem_singleton.mp hu, ht f] at hf
    exact nomatch hf

theorem cons {t : Token} {ts : List Token} {cs : List Call} (ht : ∀ f, t.isBuiltin f = false)
    (h : Lists ts cs) : Lists (t :: ts) cs :=
  (other ht).append h

theorem raw {t : Token} {k : Kind} {ts : List Token} {cs : List Call} (ht : t.IsRaw k)
    (h : Lists ts cs) : Lists (t :: ts) cs := by
  obtain ⟨s, hs⟩ := ht.value
  exact cons (fun f => by simp [Token.isBuiltin, hs]) h

theorem frame {t : Token} {ts : List Token} {cs : List Call} (ht : t.isFrame)
    (h : Lists ts cs) : Lists (t :: ts) cs := by
  refine cons (fun f => ?_) h
  by_contra hf
  have hvalue : t.value = .builtin f := by simpa [Token.isBuiltin] using hf
  simp [Token.isFrame, hvalue] at ht

theorem enclosed {o q : Token} {ts : List Token} {cs : List Call} (ho : o.IsRaw .openParen)
    (hq : q.IsRaw .closeParen) (h : Lists ts cs) : Lists (o :: (ts ++ [q])) cs := by
  simpa using raw ho (h.append (raw hq nil))

theorem call {f : Builtin} {o q : Token} {us : List Token} {e : Expr} (p : Position)
    (ho : o.IsRaw .openParen) (hq : q.IsRaw .closeParen) (hp : Phrase .sum us e)
    (h : Lists us e.calls) :
    Lists (.builtin f p :: o :: (us ++ [q])) (Expr.call f e p).calls where
  stands := by
    refine List.forall_mem_cons.mpr ⟨⟨us, [], o, q, [], rfl, ho.kind, hq.kind, hp⟩, ?_⟩
    intro c hc
    obtain ⟨inside, hin⟩ := (enclosed ho hq h).stands c hc
    exact ⟨inside, by simpa using hin.mono [.builtin f p] []⟩
  found := by
    refine List.forall_mem_cons.mpr ⟨fun g hg => ?_, fun t ht g hg => ?_⟩
    · have hfg : f = g := by simpa [Token.isBuiltin] using hg
      exact ⟨⟨f, e, p⟩, List.mem_cons_self, hfg, rfl⟩
    · obtain ⟨c, hc, hfound⟩ := (enclosed ho hq h).found t ht g hg
      exact ⟨c, List.mem_cons_of_mem _ hc, hfound⟩

end Lists

theorem Phrase.lists {l : Level} {ts : List Token} {e : Expr} (h : Phrase l ts e) :
    Lists ts e.calls := by
  induction h with
  | number | string | boolean | name => exact .other fun _ => rfl
  | group ho hc _ ih => exact .enclosed ho hc ih
  | call p _ ho hc h ih => exact .call p ho hc h ih
  | operand _ ih | factor _ ih | term _ ih => exact ih
  | signed p _ _ ih => exact .cons (fun _ => rfl) ih
  | times p _ _ _ ihl ihr | plus p _ _ _ ihl ihr => exact ihl.append (.cons (fun _ => rfl) ihr)

theorem Carries.lists {ts : List Token} {es : List Expr} (h : Carries ts es) :
    Lists ts (es.flatMap Expr.calls) := by
  induction h with
  | nil => exact .nil
  | frame ht _ ih => exact .frame ht ih
  | value hu _ hp _ ih => exact .frame hu (hp.lists.append ih)
  | call p ho hc hp _ ih => exact (Lists.call p ho hc hp hp.lists).append ih

/-! ### Arguments of the calls -/

/-- A phrase of one token is a name or a literal. -/
theorem Phrase.isAtom {l : Level} {t : Token} {e : Expr} (h : Phrase l [t] e) : e.isAtom := by
  generalize hts : [t] = ts at h
  induction h with
  | number | string | boolean | name => rfl
  | group | call => simp at hts
  | operand _ ih | factor _ ih | term _ ih => exact ih hts
  | signed p _ h => exact absurd (by simpa using (List.cons.inj hts).2.symm) h.ne_nil
  | times p _ hl hr | plus p _ hl hr =>
    have hlen := congrArg List.length hts
    have := List.length_pos_iff.mpr hl.ne_nil
    have := List.length_pos_iff.mpr hr.ne_nil
    simp only [List.length_append, List.length_cons, List.length_nil] at hlen
    omega

/-- Whether a single name or literal stands between two parentheses. -/
def isSingle : List Token → Bool
  | [only] => only.kind = .identifier || only.kind.isLiteral
  | _ => false

theorem isSingle_iff {inside : List Token} :
    isSingle inside ↔ ∃ t, inside = [t] ∧ (t.kind = .identifier ∨ t.kind.isLiteral) := by
  unfold isSingle
  split <;> simp_all

/-- A token before another among those that are not trivia. -/
theorem exists_of_significant {ts front back : List Token} {b o : Token}
    (h : significant ts = front ++ b :: o :: back) :
    ∃ front' gap rest, ts = front' ++ b :: (gap ++ o :: rest) ∧ (∀ t ∈ gap, t.isTrivia) ∧
      significant rest = back := by
  obtain ⟨before, after, rfl, -, hafter⟩ := List.filter_eq_append_iff.mp h
  obtain ⟨run, after, rfl, -, -, hafter⟩ := List.filter_eq_cons_iff.mp hafter
  obtain ⟨gap, rest, rfl, hgap, -, hrest⟩ := List.filter_eq_cons_iff.mp hafter
  exact ⟨before ++ run, gap, rest, by simp, by simpa using hgap, hrest⟩

theorem Argument.isSimple_append {front gap inner back : List Token} {t o q : Token}
    (hgap : ∀ u ∈ gap, u.isTrivia) (ho : o.kind = .openParen)
    (hinner : Balanced .openParen .closeParen inner) (hq : q.kind = .closeParen) :
    Argument.isSimple (front ++ t :: (gap ++ o :: (inner ++ q :: back))) front.length =
      isSingle (significant inner) := by
  have hsolid : o.isTrivia = false := by rw [Token.isTrivia, ho]; rfl
  have hlen : front.length + 1 + gap.length = (front ++ t :: gap).length := by
    simp only [List.length_append, List.length_cons]
    omega
  have hshape : front ++ t :: (gap ++ o :: (inner ++ q :: back)) =
      (front ++ t :: gap) ++ o :: (inner ++ q :: back) := by simp
  rw [Argument.isSimple, nextSignificant?_append hgap hsolid, hshape, hlen]
  generalize front ++ t :: gap = before
  have hopen : kindIs (before ++ o :: (inner ++ q :: back)) before.length .openParen :=
    kindIs_iff.mpr ⟨o, by simp, ho⟩
  have hclose : closingParen? (before ++ o :: (inner ++ q :: back)) before.length =
      some (before.length + 1 + inner.length) :=
    (closingParen?_eq_some_iff ho).mpr ⟨inner, q, back, rfl, hq, hinner, rfl⟩
  simp only [Option.filter_some, hopen, if_true, hclose, inside_between]
  rfl

/-- What the rules on arguments see of a call is what stands between its parentheses. -/
theorem Call.In.isSimple {c : Call} {ts inside : List Token} (h : c.In (significant ts) inside) :
    ∃ i, ts[i]? = some c.token ∧ Argument.isSimple ts i = isSingle inside := by
  obtain ⟨before, o, q, after, hts, ho, hq, hp⟩ := h
  obtain ⟨front, gap, rest, rfl, hgap, hrest⟩ := exists_of_significant hts
  have hcut : cutAtClose .openParen .closeParen 0 (significant rest) = some (inside, after) := by
    rw [hrest]
    exact hp.balanced.cutAtClose (by decide) hq after
  rw [cutAtClose_significant rfl rfl] at hcut
  obtain ⟨⟨inner, back⟩, hcut, hinside⟩ := Option.map_eq_some_iff.mp hcut
  obtain ⟨hbalanced, close, hclose, rfl⟩ := eq_of_cutAtClose hcut
  refine ⟨front.length, by simp, ?_⟩
  rw [Argument.isSimple_append hgap ho hbalanced hclose, (Prod.mk.inj hinside).1]

theorem Argument.mem_check {f : Builtin} {ts : List Token} {m : Remark} :
    m ∈ Argument.check f ts ↔ ∃ i t, ts[i]? = some t ∧ t.isBuiltin f ∧
      Argument.isSimple ts i = false ∧ m = ⟨.complexArgument f, t.position⟩ := by
  simp only [Argument.check, List.mem_filterMap, Prod.exists, List.mk_mem_zipIdx_iff_getElem?]
  constructor
  · rintro ⟨t, i, hi, hm⟩
    split at hm
    · rename_i hcond
      rw [Bool.and_eq_true, Bool.not_eq_true'] at hcond
      exact ⟨i, t, hi, hcond.1, hcond.2, (Option.some.inj hm).symm⟩
    · exact nomatch hm
  · rintro ⟨i, t, hi, ht, hs, rfl⟩
    exact ⟨t, i, hi, by simp [ht, hs]⟩

/-- The function whose argument a rule restricts. -/
def StyleRule.restricted? : StyleRule → Option Builtin
  | printlnSimpleArgument => some .println
  | readInputSimpleArgument => some .readInput
  | _ => none

theorem StyleRule.mem_check_restricted {rule : StyleRule} {f : Builtin}
    (hf : rule.restricted? = some f) {ts : List Token} {p : Position} :
    (∃ d ∈ rule.check ts, d.position = p) ↔ ∃ i t, ts[i]? = some t ∧ t.isBuiltin f ∧
      Argument.isSimple ts i = false ∧ t.position = p := by
  have hremarks : rule.remarks = Argument.check f := by
    cases rule <;> simp_all [StyleRule.restricted?, StyleRule.remarks]
  simp only [StyleRule.check, hremarks, List.mem_map, Argument.mem_check]
  constructor
  · rintro ⟨d, ⟨m, ⟨i, t, hi, ht, hs, rfl⟩, rfl⟩, rfl⟩
    exact ⟨i, t, hi, ht, hs, rfl⟩
  · rintro ⟨i, t, hi, ht, hs, rfl⟩
    exact ⟨_, ⟨_, ⟨i, t, hi, ht, hs, rfl⟩, rfl⟩, rfl⟩

theorem index_unique {ts : List Token} (h : ts.Pairwise fun t u => t.position < u.position)
    {i j : Nat} {t u : Token} (hi : ts[i]? = some t) (hj : ts[j]? = some u)
    (hp : t.position = u.position) : i = j := by
  have irrefl (p : Position) : ¬ p < p := by
    rw [Position.lt_iff]
    omega
  obtain ⟨hilt, rfl⟩ := List.getElem?_eq_some_iff.mp hi
  obtain ⟨hjlt, rfl⟩ := List.getElem?_eq_some_iff.mp hj
  have hlt := List.pairwise_iff_getElem.mp h
  rcases Nat.lt_trichotomy i j with hij | hij | hij
  · exact absurd (hp ▸ hlt i j hilt hjlt hij) (irrefl _)
  · exact hij
  · exact absurd (hp ▸ hlt j i hjlt hilt hij) (irrefl _)

/-- A call of the function that a rule restricts is reported unless a single name or literal
stands between its parentheses. -/
theorem Call.In.reported_iff {c : Call} {ts inside : List Token} {rule : StyleRule}
    (hts : ts.Pairwise fun t u => t.position < u.position)
    (h : c.In (significant ts) inside) (hf : rule.restricted? = some c.function) :
    (∃ d ∈ rule.check ts, d.position = c.position) ↔ isSingle inside = false := by
  obtain ⟨i, hi, hsimple⟩ := h.isSimple
  rw [StyleRule.mem_check_restricted hf, ← hsimple]
  constructor
  · rintro ⟨j, t, hj, ht, hs, hp⟩
    rw [index_unique hts hi hj hp.symm, hs]
  · intro hs
    exact ⟨i, c.token, hi, by simp [Call.token, Token.isBuiltin], hs, rfl⟩

/-- The rules on simple arguments see the calls of the tree: each call with a compound argument
is reported, only calls are reported, and a call is passed over just if a single name or literal
stands between its parentheses. -/
theorem check_simpleArgument {source version : String} {ts : List Token} {ss : List Statement}
    (h : tokenize source version = .ok ts) (hp : parse ts = .ok ss) {rule : StyleRule}
    {f : Builtin} (hf : rule.restricted? = some f) :
    (∀ c ∈ blockCalls ss, c.function = f → c.argument.isAtom = false →
      ∃ d ∈ rule.check ts, d.position = c.position) ∧
    (∀ d ∈ rule.check ts, ∃ c ∈ blockCalls ss, c.function = f ∧ c.position = d.position) ∧
    ∀ c ∈ blockCalls ss, c.function = f → ∃ inside, c.In (significant ts) inside ∧
      ((∀ d ∈ rule.check ts, d.position ≠ c.position) ↔
        ∃ t, inside = [t] ∧ (t.kind = .identifier ∨ t.kind.isLiteral)) := by
  have hlists := (carries_of_parse (consistent_of_tokenize h) hp).lists
  have hts := tokenize_increasing h
  refine ⟨?_, ?_, ?_⟩
  · rintro c hc rfl hatom
    obtain ⟨inside, hin⟩ := hlists.stands c hc
    rw [hin.reported_iff hts hf]
    by_contra hsingle
    obtain ⟨t, rfl, -⟩ := isSingle_iff.mp (by simpa using hsingle)
    obtain ⟨-, -, -, -, -, -, -, hphrase⟩ := hin
    rw [hphrase.isAtom] at hatom
    exact nomatch hatom
  · intro d hd
    obtain ⟨i, t, hi, ht, -, hpos⟩ := (StyleRule.mem_check_restricted hf).mp ⟨d, hd, rfl⟩
    have hmem := List.mem_of_getElem? hi
    have hsolid := (consistent_of_tokenize h t hmem).isTrivia_of_isBuiltin ht
    rw [← hpos]
    exact hlists.found t (List.mem_filter.mpr ⟨hmem, by simp [hsolid]⟩) f ht
  · rintro c hc rfl
    obtain ⟨inside, hin⟩ := hlists.stands c hc
    refine ⟨inside, hin, ?_⟩
    rw [← isSingle_iff, ← Bool.not_eq_false, ← hin.reported_iff hts hf]
    simp

/-- The tokens of a branch with a call in the argument of another call. -/
def nestedCalls : List Token :=
  [.raw .ifWord "if" ⟨1, 0⟩, .raw .openParen "(" ⟨1, 2⟩, .builtin .readInput ⟨1, 3⟩,
   .raw .openParen "(" ⟨1, 12⟩, .space ⟨1, 13⟩, .string "" ⟨1, 14⟩, .raw .closeParen ")" ⟨1, 16⟩,
   .raw .closeParen ")" ⟨1, 17⟩, .raw .openBrace "\x7b" ⟨1, 18⟩, .builtin .println ⟨1, 19⟩,
   .raw .openParen "(" ⟨1, 26⟩, .builtin .readInput ⟨1, 27⟩, .lineBreak ⟨1, 36⟩,
   .raw .openParen "(" ⟨2, 0⟩, .raw .openParen "(" ⟨2, 1⟩, .identifier "a" ⟨2, 2⟩,
   .raw .closeParen ")" ⟨2, 3⟩, .raw .closeParen ")" ⟨2, 4⟩, .raw .closeParen ")" ⟨2, 5⟩,
   .raw .semicolon ";" ⟨2, 6⟩, .raw .closeBrace "\x7d" ⟨2, 7⟩]

/-- Of two calls of one function, the one with needless parentheses is reported. -/
theorem check_simpleArgument_nestedCalls :
    tokenize "if(readInput( \"\"))\x7bprintln(readInput\n((a)));\x7d" "1.1" = .ok nestedCalls ∧
      ∃ ss, parse nestedCalls = .ok ss ∧
        StyleRule.readInputSimpleArgument.restricted? = some .readInput ∧
        (StyleRule.readInputSimpleArgument.check nestedCalls).map Finding.position = [⟨1, 27⟩] ∧
        ∃ c ∈ blockCalls ss, c.function = .readInput ∧ c.position = ⟨1, 27⟩ := by
  have h : tokenize "if(readInput( \"\"))\x7bprintln(readInput\n((a)));\x7d" "1.1" =
      .ok nestedCalls := by decide +kernel
  have hplaces : (StyleRule.readInputSimpleArgument.check nestedCalls).map Finding.position =
      [⟨1, 27⟩] := by decide +kernel
  obtain ⟨ss, hp⟩ := exists_of_isOk (show (parse nestedCalls).isOk by decide +kernel)
  obtain ⟨-, hcalls, -⟩ :=
    @check_simpleArgument _ _ _ _ h hp .readInputSimpleArgument .readInput rfl
  obtain ⟨d, hd, hposition⟩ : ∃ d ∈ StyleRule.readInputSimpleArgument.check nestedCalls,
      d.position = ⟨1, 27⟩ := List.mem_map.mp (by rw [hplaces]; exact List.mem_cons_self)
  obtain ⟨c, hc, hf, hcp⟩ := hcalls d hd
  exact ⟨h, ss, hp, rfl, hplaces, c, hc, hf, hcp.trans hposition⟩

end LetScript
