import LetScript.Proofs.Block
import LetScript.Style.Spacing

/-! The expressions of a program. They come in the tokens of the program in the same order,
each behind a token that ends no operand, and what stands between them is no part of any
expression. -/
namespace LetScript

mutual

/-- The expressions of a statement in the order of the text. A call that is a statement is one
of them. -/
def Statement.expressions : Statement → List Expr
  | .declare _ _ value _ => value.toList
  | .assign _ value => [value]
  | .call f argument p => [.call f argument p]
  | .branch condition thenPart elsePart _ =>
    condition :: (blockExpressions thenPart ++ elseExpressions elsePart)

def blockExpressions : List Statement → List Expr
  | [] => []
  | s :: ss => s.expressions ++ blockExpressions ss

def elseExpressions : Option (List Statement) → List Expr
  | none => []
  | some ss => blockExpressions ss

end

/-- Whether a token is neither a function nor an operator on values. -/
def Token.isFrame (t : Token) : Bool :=
  match t.value with
  | .builtin _ => false
  | .operator o => !o.isBinary
  | _ => true

theorem Token.IsRaw.isFrame {t : Token} {k : Kind} (h : t.IsRaw k) : t.isFrame := by
  obtain ⟨s, hs⟩ := h.value
  simp [Token.isFrame, hs]

/-- How the tokens of a program carry its expressions. -/
inductive Carries : List Token → List Expr → Prop
  | nil : Carries [] []
  | frame {t : Token} {ts : List Token} {es : List Expr} (ht : t.isFrame) (h : Carries ts es) :
      Carries (t :: ts) es
  | value {u : Token} {us ts : List Token} {e : Expr} {es : List Expr} (hu : u.isFrame)
      (hend : Padding.endsOperand u.kind = false) (hp : Phrase .sum us e) (h : Carries ts es) :
      Carries (u :: us ++ ts) (e :: es)
  | call {f : Builtin} {o c : Token} {us ts : List Token} {e : Expr} {es : List Expr}
      (p : Position) (ho : o.IsRaw .openParen) (hc : c.IsRaw .closeParen) (hp : Phrase .sum us e)
      (h : Carries ts es) :
      Carries (.builtin f p :: o :: (us ++ [c]) ++ ts) (.call f e p :: es)

namespace Carries

theorem append {as bs : List Token} {xs ys : List Expr} (ha : Carries as xs) (hb : Carries bs ys) :
    Carries (as ++ bs) (xs ++ ys) := by
  induction ha with
  | nil => exact hb
  | frame ht _ ih => exact .frame ht ih
  | value hu hend hp _ ih =>
    rw [List.append_assoc]
    exact .value hu hend hp ih
  | call p ho hc hp _ ih =>
    rw [List.append_assoc]
    exact .call p ho hc hp ih

theorem raw {t : Token} {k : Kind} {ts : List Token} {es : List Expr} (ht : t.IsRaw k)
    (h : Carries ts es) : Carries (t :: ts) es := .frame ht.isFrame h

/-- Braces around a block. -/
theorem braced {o c : Token} {as ts : List Token} {xs es : List Expr} (ho : o.IsRaw .openBrace)
    (ha : Carries as xs) (hc : c.IsRaw .closeBrace) (h : Carries ts es) :
    Carries (o :: (as ++ [c]) ++ ts) (xs ++ es) := by
  have hrest := ha.append (raw hc h)
  simpa using raw ho hrest

/-- The condition of a conditional. -/
theorem condition {i o c : Token} {cs ts : List Token} {e : Expr} {es : List Expr}
    (hi : i.IsRaw .ifWord) (ho : o.IsRaw .openParen) (he : Phrase .sum cs e)
    (hc : c.IsRaw .closeParen) (h : Carries ts es) :
    Carries (i :: o :: (cs ++ [c]) ++ ts) (e :: es) := by
  have hend : Padding.endsOperand o.kind = false := by rw [ho.kind]; rfl
  simpa using raw hi (.value ho.isFrame hend he (raw hc h))

end Carries

theorem Simple.carries {ls ts : List Token} {s : Statement} {es : List Expr} (hs : Simple ls s)
    (h : Carries ts es) : Carries (ls ++ ts) (s.expressions ++ es) := by
  cases hs with
  | bare q r hd hlet hc => exact .raw hd (.frame rfl (.raw hc (.frame rfl h)))
  | declaration q r u hd hc hp =>
    exact .raw hd (.frame rfl (.raw hc (.frame rfl (.value rfl rfl hp h))))
  | call p ho hc hp => exact .call p ho hc hp h
  | assign p q hp => exact .frame rfl (.value rfl rfl hp h)

theorem Block.carries {ts : List Token} {ss : List Statement} (h : Block ts ss) :
    Carries ts (blockExpressions ss) := by
  induction h with
  | nil => exact .nil
  | empty ht _ ih => exact .raw ht ih
  | simple hs ht _ ih => exact hs.carries (.raw ht ih)
  | branch hi ho he hc hob _ hcb _ iha ih =>
    have hbody := Carries.braced hob iha hcb ih
    simpa [blockExpressions, Statement.expressions, elseExpressions] using
      Carries.condition hi ho he hc hbody
  | branchElse hi ho he hc hob _ hcb hw hob' _ hcb' _ iha ihb ih =>
    have helse := Carries.raw hw (.braced hob' ihb hcb' ih)
    have hbody := Carries.braced hob iha hcb helse
    simpa [blockExpressions, Statement.expressions, elseExpressions] using
      Carries.condition hi ho he hc hbody

/-- The tokens of a program carry its expressions. -/
theorem carries_of_parse {ts : List Token} {ss : List Statement} (hc : ∀ t ∈ ts, t.Consistent)
    (h : parse ts = .ok ss) : Carries (significant ts) (blockExpressions ss) :=
  (readBlock_sound (fun t ht => hc t (List.mem_of_mem_filter ht)) h).carries

end LetScript
