import LetScript.Proofs.Line
import LetScript.Proofs.Phrase
import LetScript.Proofs.Respelling

/-! The grammar of programs. Reading a list of tokens without trivia accepts
exactly the blocks of the grammar, and builds the statements of the block. -/
namespace LetScript

/-- A statement that a semicolon ends. -/
inductive Simple : List Token → Statement → Prop
  | bare {d c : Token} {x : String} {ty : TypeName} (q r : Position) (hd : d.IsRaw .declarator)
      (hlet : declaratorOf d = .let_) (hc : c.IsRaw .colon) :
      Simple [d, .identifier x q, c, .typeName ty r] (.declare .let_ ⟨x, ty, q⟩ none d.position)
  | declaration {d c : Token} {x : String} {ty : TypeName} {ts : List Token} {e : Expr}
      (q r s : Position) (hd : d.IsRaw .declarator) (hc : c.IsRaw .colon) (h : Phrase .sum ts e) :
      Simple (d :: .identifier x q :: c :: .typeName ty r :: .operator .equal s :: ts)
        (.declare (declaratorOf d) ⟨x, ty, q⟩ (some e) d.position)
  | call {f : Builtin} {o c : Token} {ts : List Token} {e : Expr} (p : Position)
      (ho : o.IsRaw .openParen) (hc : c.IsRaw .closeParen) (h : Phrase .sum ts e) :
      Simple (.builtin f p :: o :: (ts ++ [c])) (.call f e p)
  | assign {x : String} {ts : List Token} {e : Expr} (p q : Position) (h : Phrase .sum ts e) :
      Simple (.identifier x p :: .operator .equal q :: ts) (.assign ⟨x, p⟩ e)

/-- A list of tokens is a block with its statements. A semicolon of its own is
no statement. -/
inductive Block : List Token → List Statement → Prop
  | nil : Block [] []
  | empty {t : Token} {ts : List Token} {ss : List Statement} (ht : t.IsRaw .semicolon)
      (h : Block ts ss) : Block (t :: ts) ss
  | simple {t : Token} {ls ts : List Token} {s : Statement} {ss : List Statement}
      (hs : Simple ls s) (ht : t.IsRaw .semicolon) (h : Block ts ss) :
      Block (ls ++ t :: ts) (s :: ss)
  | branch {i o c ob cb : Token} {cs as ts : List Token} {e : Expr} {xs ss : List Statement}
      (hi : i.IsRaw .ifWord) (ho : o.IsRaw .openParen) (he : Phrase .sum cs e)
      (hc : c.IsRaw .closeParen) (hob : ob.IsRaw .openBrace) (ha : Block as xs)
      (hcb : cb.IsRaw .closeBrace) (h : Block ts ss) :
      Block (i :: o :: (cs ++ [c]) ++ ob :: (as ++ [cb]) ++ ts)
        (.branch e xs none i.position :: ss)
  | branchElse {i o c ob cb w ob' cb' : Token} {cs as bs ts : List Token} {e : Expr}
      {xs ys ss : List Statement}
      (hi : i.IsRaw .ifWord) (ho : o.IsRaw .openParen) (he : Phrase .sum cs e)
      (hc : c.IsRaw .closeParen) (hob : ob.IsRaw .openBrace) (ha : Block as xs)
      (hcb : cb.IsRaw .closeBrace) (hw : w.IsRaw .elseWord) (hob' : ob'.IsRaw .openBrace)
      (hb : Block bs ys) (hcb' : cb'.IsRaw .closeBrace) (h : Block ts ss) :
      Block (i :: o :: (cs ++ [c]) ++ ob :: (as ++ [cb]) ++ w :: ob' :: (bs ++ [cb']) ++ ts)
        (.branch e xs (some ys) i.position :: ss)

theorem inExpression_isDivider {t : Token} (h : t.inExpression = true) :
    t.kind.isDivider = false := by
  obtain ⟨k, v, p⟩ := t
  cases k <;> first | rfl | cases h

namespace Simple

variable {ls : List Token} {s : Statement}

theorem isDivider (h : Simple ls s) : ∀ t ∈ ls, t.kind.isDivider = false := by
  have phrase {ts : List Token} {e : Expr} (hp : Phrase .sum ts e) :
      ∀ t ∈ ts, t.kind.isDivider = false :=
    fun t ht => inExpression_isDivider (hp.inExpression t ht)
  cases h with
  | bare q r hd hlet hc => simp [hd.kind, hc.kind, Kind.isDivider]
  | declaration q r u hd hc hp =>
    simpa [hd.kind, hc.kind, Kind.isDivider] using phrase hp
  | call p ho hc hp =>
    simpa [or_imp, forall_and, ho.kind, hc.kind, Kind.isDivider] using phrase hp
  | assign p q hp => simpa [Kind.isDivider] using phrase hp

theorem balanced (h : Simple ls s) : Balanced .openParen .closeParen ls := by
  cases h with
  | bare q r hd hlet hc => exact balanced_of_forall (by simp [hd.kind, hc.kind])
  | declaration q r u hd hc hp =>
    have hfront := hp.balanced.cons (t := .operator .equal u) (by simp) (by simp)
    exact (((hfront.cons (by simp) (by simp)).cons (by simp [hc.kind]) (by simp [hc.kind])).cons
      (by simp) (by simp)).cons (by simp [hd.kind]) (by simp [hd.kind])
  | call p ho hc hp =>
    exact (hp.balanced.enclose ho.kind hc.kind (by decide)).cons (by simp) (by simp)
  | assign p q hp => exact (hp.balanced.cons (by simp) (by simp)).cons (by simp) (by simp)

/-- A simple statement is a line, and reading the line gives the statement. -/
theorem reads (h : Simple ls s) :
    ∃ l : Line, ls = l.tokens ∧ l.first.kind ≠ .elseWord ∧ readStatement l = .ok s := by
  have hb := h.balanced
  cases h with
  | @bare d c x ty q r hd hlet hc =>
    obtain ⟨w, hw⟩ := hd.value
    obtain ⟨v, hv⟩ := hc.value
    refine ⟨⟨d, [.identifier x q, c, .typeName ty r]⟩, rfl, by simp [hd.kind], ?_⟩
    rw [readStatement_of_balanced hb]
    simp [hd.kind, hc.kind, hw, hv, hlet, Token.isOperator, readBareDeclaration, checkForm,
      variableOf, typeOf, Token.nameText, Token.rawText?]
  | @declaration d c x ty ts e q r u hd hc hp =>
    refine ⟨⟨d, .identifier x q :: c :: .typeName ty r :: .operator .equal u :: ts⟩, rfl,
      by simp [hd.kind], ?_⟩
    obtain ⟨v, vs, rfl⟩ := List.exists_cons_of_ne_nil hp.ne_nil
    have he := hp.reads.readExpr hp.ne_nil u
    rw [readStatement_of_balanced hb]
    simp [hd.kind, hc.kind, Token.isOperator, readDeclaration, checkForm, variableOf, typeOf,
      Token.nameText, Token.rawText?, he]
  | @call f o c ts e p ho hc hp =>
    refine ⟨⟨.builtin f p, o :: (ts ++ [c])⟩, rfl, by simp, ?_⟩
    have he := hp.reads.readExpr hp.ne_nil o.position
    have ht := takeParens_enclosed ho.kind hc.kind hp.balanced
    rw [readStatement_of_balanced hb]
    simp [Line.looksLikeCall, readCall, ht, he]
  | @assign x ts e p q hp =>
    refine ⟨⟨.identifier x p, .operator .equal q :: ts⟩, rfl, by simp, ?_⟩
    obtain ⟨v, vs, rfl⟩ := List.exists_cons_of_ne_nil hp.ne_nil
    have he := hp.reads.readExpr hp.ne_nil q
    rw [readStatement_of_balanced hb]
    simp [Line.looksLikeCall, Token.isOperator, readAssignment, checkForm, Token.nameText,
      Token.rawText?, he]

end Simple

namespace Block

variable {ts : List Token} {ss : List Statement}

theorem balanced_parens (h : Block ts ss) : Balanced .openParen .closeParen ts := by
  have neutral {t : Token} {k : Kind} {us : List Token} (ht : t.IsRaw k)
      (hk : k ≠ .openParen ∧ k ≠ .closeParen) (hu : Balanced .openParen .closeParen us) :
      Balanced .openParen .closeParen (t :: us) :=
    hu.cons (by simp [ht.kind, hk]) (by simp [ht.kind, hk])
  have braced {o c : Token} {us : List Token} (ho : o.IsRaw .openBrace) (hc : c.IsRaw .closeBrace)
      (hu : Balanced .openParen .closeParen us) :
      Balanced .openParen .closeParen (o :: (us ++ [c])) :=
    neutral ho (by decide) (hu.append (neutral hc (by decide) balanced_nil))
  induction h with
  | nil => exact balanced_nil
  | empty ht h ih => exact neutral ht (by decide) ih
  | simple hs ht h ih => exact hs.balanced.append (neutral ht (by decide) ih)
  | branch hi ho he hc hob ha hcb h iha ih =>
    have hcond := neutral hi (by decide) (he.balanced.enclose ho.kind hc.kind (by decide))
    exact (hcond.append (braced hob hcb iha)).append ih
  | branchElse hi ho he hc hob ha hcb hw hob' hb hcb' h iha ihb ih =>
    have hcond := neutral hi (by decide) (he.balanced.enclose ho.kind hc.kind (by decide))
    have helse := neutral hw (by decide) (braced hob' hcb' ihb)
    exact ((hcond.append (braced hob hcb iha)).append helse).append ih

theorem balanced_braces (h : Block ts ss) : Balanced .openBrace .closeBrace ts := by
  have plain {us : List Token} (hu : ∀ t ∈ us, t.kind.isDivider = false) :
      Balanced .openBrace .closeBrace us := by
    refine balanced_of_forall fun t ht => ?_
    have hd := hu t ht
    constructor <;> intro hk <;> simp [hk, Kind.isDivider] at hd
  have neutral {t : Token} {k : Kind} {us : List Token} (ht : t.IsRaw k)
      (hk : k ≠ .openBrace ∧ k ≠ .closeBrace) (hu : Balanced .openBrace .closeBrace us) :
      Balanced .openBrace .closeBrace (t :: us) :=
    hu.cons (by simp [ht.kind, hk]) (by simp [ht.kind, hk])
  have condition {i o c : Token} {us : List Token} {e : Expr} (hi : i.IsRaw .ifWord)
      (ho : o.IsRaw .openParen) (he : Phrase .sum us e) (hc : c.IsRaw .closeParen) :
      Balanced .openBrace .closeBrace (i :: o :: (us ++ [c])) := by
    have hu := plain fun t ht => inExpression_isDivider (he.inExpression t ht)
    have hin := hu.append (neutral hc (by decide) balanced_nil)
    exact neutral hi (by decide) (neutral ho (by decide) hin)
  induction h with
  | nil => exact balanced_nil
  | empty ht h ih => exact neutral ht (by decide) ih
  | simple hs ht h ih => exact (plain hs.isDivider).append (neutral ht (by decide) ih)
  | branch hi ho he hc hob ha hcb h iha ih =>
    have hthen := iha.enclose hob.kind hcb.kind (by decide)
    exact ((condition hi ho he hc).append hthen).append ih
  | branchElse hi ho he hc hob ha hcb hw hob' hb hcb' h iha ihb ih =>
    have hthen := iha.enclose hob.kind hcb.kind (by decide)
    have helse := neutral hw (by decide) (ihb.enclose hob'.kind hcb'.kind (by decide))
    exact (((condition hi ho he hc).append hthen).append helse).append ih

/-- No block begins with `else`. -/
theorem elseFollows_eq_false (h : Block ts ss) : elseFollows ts = false := by
  cases h with
  | nil => rfl
  | empty ht h => simp [elseFollows, ht.kind]
  | simple hs ht h =>
    obtain ⟨l, rfl, hl, -⟩ := hs.reads
    simpa [elseFollows, Line.tokens] using hl
  | branch hi => simp [elseFollows, hi.kind]
  | branchElse hi => simp [elseFollows, hi.kind]

/-- The condition of a conditional is passed over while its line is cut. -/
theorem cutFrom_condition {i o c : Token} {cs : List Token} {e : Expr} (hi : i.IsRaw .ifWord)
    (ho : o.IsRaw .openParen) (he : Phrase .sum cs e) (hc : c.IsRaw .closeParen)
    (rest : List Token) :
    cutFrom 0 [] (i :: o :: (cs ++ [c]) ++ rest) = cutFrom 0 (i :: o :: (cs ++ [c])) rest := by
  have hcs : ∀ t ∈ cs, t.kind.isDivider = false :=
    fun t ht => inExpression_isDivider (he.inExpression t ht)
  have hall : ∀ t ∈ i :: o :: (cs ++ [c]), t.kind.isDivider = false := by
    simpa [or_imp, forall_and, hi.kind, ho.kind, hc.kind, Kind.isDivider] using hcs
  exact cutFrom_plain hall 0 [] rest

/-- A conditional with one branch is read as such. -/
theorem readStatement_branch {i o c ob cb : Token} {cs as : List Token} {e : Expr}
    {xs : List Statement} (hi : i.IsRaw .ifWord) (ho : o.IsRaw .openParen) (he : Phrase .sum cs e)
    (hc : c.IsRaw .closeParen) (hob : ob.IsRaw .openBrace) (ha : Block as xs)
    (hcb : cb.IsRaw .closeBrace) (hx : readBlock as = .ok xs) :
    readStatement ⟨i, o :: (cs ++ [c]) ++ ob :: (as ++ [cb])⟩ =
      .ok (.branch e xs none i.position) := by
  have hb := (Block.branch hi ho he hc hob ha hcb .nil).balanced_parens
  rw [List.append_nil, List.cons_append] at hb
  have hp := takeParens_enclosed ho.kind hc.kind he.balanced
  have ht := takeBraces_enclosed hob.kind hcb.kind ha.balanced_braces
  have hr := he.reads.readExpr he.ne_nil
  rw [readStatement_of_balanced hb, hi.kind]
  simp only [readBranch_eq]
  simp [hp, hr, ht, hx, readElse]

theorem readStatement_branchElse {i o c ob cb w ob' cb' : Token} {cs as bs : List Token} {e : Expr}
    {xs ys : List Statement} (hi : i.IsRaw .ifWord) (ho : o.IsRaw .openParen)
    (he : Phrase .sum cs e) (hc : c.IsRaw .closeParen) (hob : ob.IsRaw .openBrace)
    (ha : Block as xs) (hcb : cb.IsRaw .closeBrace) (hw : w.IsRaw .elseWord)
    (hob' : ob'.IsRaw .openBrace) (hb : Block bs ys) (hcb' : cb'.IsRaw .closeBrace)
    (hx : readBlock as = .ok xs) (hy : readBlock bs = .ok ys) :
    readStatement ⟨i, o :: (cs ++ [c]) ++ ob :: (as ++ [cb]) ++ w :: ob' :: (bs ++ [cb'])⟩ =
      .ok (.branch e xs (some ys) i.position) := by
  have hbal := (Block.branchElse hi ho he hc hob ha hcb hw hob' hb hcb' .nil).balanced_parens
  rw [List.append_nil, List.cons_append, List.cons_append] at hbal
  have hp := takeParens_enclosed ho.kind hc.kind he.balanced
  have ht := takeBraces_enclosed hob.kind hcb.kind ha.balanced_braces
  have ht' := takeBraces_enclosed hob'.kind hcb'.kind hb.balanced_braces
  have hr := he.reads.readExpr he.ne_nil
  rw [readStatement_of_balanced hbal, hi.kind]
  simp only [readBranch_eq]
  simp [hp, hr, ht, ht', hx, hy, hw.kind, readElse]

theorem readBlock_of_lines
    (h : ∃ lines, cutLines ts = ⟨lines, none⟩ ∧ lines.mapM readStatement = .ok ss) :
    readBlock ts = .ok ss := by
  obtain ⟨lines, hl, hm⟩ := h
  rw [readBlock_eq, hl]
  simp only [hm]
  rfl

/-- The lines of a block are its statements. -/
theorem reads (h : Block ts ss) :
    ∃ lines, cutLines ts = ⟨lines, none⟩ ∧ lines.mapM readStatement = .ok ss := by
  have further {l : Line} {us : List Token} {s : Statement} {xs : List Statement}
      (hs : readStatement l = .ok s)
      (hx : ∃ lines, cutLines us = ⟨lines, none⟩ ∧ lines.mapM readStatement = .ok xs) :
      ∃ lines, (cutFrom 0 [] us).cons l = ⟨lines, none⟩ ∧
        lines.mapM readStatement = .ok (s :: xs) := by
    obtain ⟨lines, hl, hm⟩ := hx
    refine ⟨l :: lines, ?_, ?_⟩
    · rw [show cutFrom 0 [] us = ⟨lines, none⟩ from hl]
      rfl
    · rw [List.mapM_cons, hs, hm]
      rfl
  induction h with
  | nil => exact ⟨[], rfl, rfl⟩
  | @empty t ts ss ht h ih =>
    have hcut : cutLines (t :: ts) = cutLines ts := by simp [cutLines, cutFrom, ht.kind]
    rwa [hcut]
  | @simple t ls ts s ss hs ht h ih =>
    obtain ⟨l, rfl, -, hl⟩ := hs.reads
    have hcut : cutLines (l.tokens ++ t :: ts) = (cutFrom 0 [] ts).cons l := by
      rw [cutLines, cutFrom_plain hs.isDivider]
      simp [Line.tokens, cutFrom, ht.kind]
    rw [hcut]
    exact further hl ih
  | @branch i o c ob cb cs as ts e xs ss hi ho he hc hob ha hcb h iha ih =>
    have hs := readStatement_branch hi ho he hc hob ha hcb (readBlock_of_lines iha)
    have hcut := cutFrom_branch hob.kind hcb.kind hi.kind ha.balanced_braces (o :: (cs ++ [c])) ts
    rw [h.elseFollows_eq_false, if_neg (by simp)] at hcut
    have hall := cutFrom_condition hi ho he hc (ob :: (as ++ cb :: ts))
    rw [cutLines]
    simp only [List.append_assoc, List.cons_append, List.nil_append] at hall hcut hs ⊢
    rw [hall, hcut]
    exact further hs ih
  | @branchElse i o c ob cb w ob' cb' cs as bs ts e xs ys ss hi ho he hc hob ha hcb hw hob' hb
      hcb' h iha ihb ih =>
    have hs := readStatement_branchElse hi ho he hc hob ha hcb hw hob' hb hcb'
      (readBlock_of_lines iha) (readBlock_of_lines ihb)
    have hcut := cutFrom_branch hob.kind hcb.kind hi.kind ha.balanced_braces (o :: (cs ++ [c]))
      (w :: ob' :: (bs ++ cb' :: ts))
    rw [if_pos (by simp [elseFollows, hw.kind])] at hcut
    have hplain : ∀ t ∈ [w], t.kind.isDivider = false := by simp [hw.kind, Kind.isDivider]
    have hword := cutFrom_plain hplain 0
      (i :: (o :: (cs ++ [c]) ++ ob :: (as ++ [cb]))) (ob' :: (bs ++ cb' :: ts))
    have hcut' := cutFrom_branch hob'.kind hcb'.kind hi.kind hb.balanced_braces
      (o :: (cs ++ [c]) ++ ob :: (as ++ [cb]) ++ [w]) ts
    rw [h.elseFollows_eq_false, if_neg (by simp)] at hcut'
    have hall := cutFrom_condition hi ho he hc
      (ob :: (as ++ cb :: w :: ob' :: (bs ++ cb' :: ts)))
    rw [cutLines]
    simp only [List.append_assoc, List.cons_append, List.nil_append] at hall hcut hcut' hword hs ⊢
    rw [hall, hcut, hword, hcut']
    exact further hs ih

end Block

theorem readBareDeclaration_sound {ts : List Token} {s : Statement}
    (hc : ∀ t ∈ ts, t.Consistent) (h : readBareDeclaration ts = .ok s) : Simple ts s := by
  replace h := bind_eq_ok.mp h
  obtain ⟨⟨⟩, hform, h⟩ := h
  split at h
  · rename_i d name c type
    simp only [List.forall_mem_cons] at hc
    obtain ⟨hd, hn, hcol, hty, -⟩ := hc
    simp only [checkForm_kind] at hform
    obtain ⟨hdk, hnk, hck, htk, -⟩ := hform
    obtain ⟨x, q, rfl⟩ := hn.eq_identifier hnk
    obtain ⟨ty, r, rfl⟩ := hty.eq_typeName htk
    cases hlet : declaratorOf d with
    | const_ => simp [hlet] at h
    | let_ =>
      simp only [hlet, reduceCtorEq, if_false, Except.ok.injEq] at h
      subst h
      exact .bare q r (hd.isRaw hdk (by decide)) hlet (hcol.isRaw hck (by decide))
  · simp at h
  · simp at h

theorem readDeclaration_sound {ts : List Token} {s : Statement}
    (hc : ∀ t ∈ ts, t.Consistent) (h : readDeclaration ts = .ok s) : Simple ts s := by
  replace h := bind_eq_ok.mp h
  obtain ⟨⟨⟩, hform, h⟩ := h
  split at h
  · rename_i d name c type equal v vs
    simp only [List.forall_mem_cons] at hc
    obtain ⟨hd, hn, hcol, hty, heq, hvs⟩ := hc
    simp only [checkForm_kind, checkForm_operator] at hform
    obtain ⟨hdk, hnk, hck, htk, hek, -⟩ := hform
    obtain ⟨x, q, rfl⟩ := hn.eq_identifier hnk
    obtain ⟨ty, r, rfl⟩ := hty.eq_typeName htk
    obtain ⟨p, rfl⟩ := heq.eq_operator hek
    obtain ⟨e, he, h⟩ := bind_eq_ok.mp h
    cases h
    exact .declaration q r p (hd.isRaw hdk (by decide)) (hcol.isRaw hck (by decide))
      (readExpr_sound (List.forall_mem_cons.mpr hvs) he)
  · simp at h

theorem readAssignment_sound {ts : List Token} {s : Statement}
    (hc : ∀ t ∈ ts, t.Consistent) (h : readAssignment ts = .ok s) : Simple ts s := by
  replace h := bind_eq_ok.mp h
  obtain ⟨⟨⟩, hform, h⟩ := h
  split at h
  · rename_i name equal v vs
    simp only [List.forall_mem_cons] at hc
    obtain ⟨hn, heq, hvs⟩ := hc
    simp only [checkForm_kind, checkForm_operator] at hform
    obtain ⟨hnk, hek, -⟩ := hform
    obtain ⟨x, q, rfl⟩ := hn.eq_identifier hnk
    obtain ⟨p, rfl⟩ := heq.eq_operator hek
    obtain ⟨e, he, h⟩ := bind_eq_ok.mp h
    cases h
    exact .assign q p (readExpr_sound (List.forall_mem_cons.mpr hvs) he)
  · simp at h

theorem readCall_sound {l : Line} {s : Statement} (hc : ∀ t ∈ l.tokens, t.Consistent)
    (h : readCall l = .ok s) : Simple l.tokens s := by
  obtain ⟨first, rest⟩ := l
  have hcons := List.forall_mem_cons.mp hc
  unfold readCall at h
  split at h
  · rename_i f hf
    obtain ⟨p, rfl⟩ := hcons.1.eq_builtin hf
    obtain ⟨⟨q, inside, after⟩, ht, h⟩ := bind_eq_ok.mp h
    obtain ⟨o, c, ho, hcl, rfl⟩ := takeParens_sound hcons.2 ht
    cases after with
    | nil =>
      obtain ⟨e, he, h⟩ := bind_eq_ok.mp h
      cases h
      have hin : ∀ t ∈ inside, t.Consistent := fun t ht => hcons.2 t (by simp [ht])
      simpa [Line.tokens] using Simple.call p ho hcl (readExpr_sound hin he)
    | cons extra more => simp at h
  · simp at h

/-- What a line with a statement can be: a simple statement, or a conditional,
which is a block by itself. -/
def Line.Means (l : Line) (s : Statement) : Prop :=
  Simple l.tokens s ∧ l.first.kind ≠ .ifWord ∨
    ∀ ts ss, Block ts ss → Block (l.tokens ++ ts) (s :: ss)

/-- Lines with a meaning, put together as they were cut, make up a block. -/
theorem CutsInto.block {ts : List Token} {ls : List Line} (h : CutsInto ts ls)
    (hc : ∀ t ∈ ts, t.Consistent) (hl : ∀ l ∈ ls, ∀ s, readStatement l = .ok s → l.Means s)
    {ss : List Statement} (hm : ls.mapM readStatement = .ok ss) : Block ts ss := by
  induction h generalizing ss with
  | nil =>
    cases hm
    exact .nil
  | empty ht h ih =>
    have hcons := List.forall_mem_cons.mp hc
    exact .empty (hcons.1.isRaw ht (by decide)) (ih hcons.2 hl hm)
  | @ended l t ts ls ht h ih =>
    have happ := List.forall_mem_append.mp hc
    have hcons := List.forall_mem_cons.mp happ.2
    rw [List.mapM_cons] at hm
    obtain ⟨s, hs, hm⟩ := bind_eq_ok.mp hm
    obtain ⟨xs, hxs, hm⟩ := bind_eq_ok.mp hm
    cases hm
    have hsemi := hcons.1.isRaw ht (by decide)
    have hblock := ih hcons.2 (fun l hl' => hl l (by simp [hl'])) hxs
    rcases hl l (by simp) s hs with ⟨hsimple, -⟩ | hbranch
    · exact .simple hsimple hsemi hblock
    · exact hbranch _ _ (.empty hsemi hblock)
  | @closed l ts ls hif h ih =>
    have happ := List.forall_mem_append.mp hc
    rw [List.mapM_cons] at hm
    obtain ⟨s, hs, hm⟩ := bind_eq_ok.mp hm
    obtain ⟨xs, hxs, hm⟩ := bind_eq_ok.mp hm
    cases hm
    have hblock := ih happ.2 (fun l hl' => hl l (by simp [hl'])) hxs
    rcases hl l (by simp) s hs with ⟨-, hne⟩ | hbranch
    · exact absurd hif hne
    · exact hbranch _ _ hblock

mutual

theorem readBranch_sound {l : Line} {s : Statement} (hc : ∀ t ∈ l.tokens, t.Consistent)
    (hif : l.first.kind = .ifWord) (h : readBranch l = .ok s) :
    ∀ ts ss, Block ts ss → Block (l.tokens ++ ts) (s :: ss) := by
  have hcons := List.forall_mem_cons.mp hc
  have hi := hcons.1.isRaw hif (by decide)
  have hlen : l.tokens.length = l.rest.length + 1 := by simp [Line.tokens]
  rw [readBranch_eq] at h
  obtain ⟨⟨p, inside, rest₁⟩, hp, h⟩ := bind_eq_ok.mp h
  obtain ⟨o, c, ho, hcl, hrest⟩ := takeParens_sound hcons.2 hp
  have hlen₁ := takeParens_length hp
  obtain ⟨e, he, h⟩ := bind_eq_ok.mp h
  obtain ⟨⟨as, rest₂⟩, ht, h⟩ := bind_eq_ok.mp h
  have hrest₁ : ∀ t ∈ rest₁, t.Consistent := fun t ht => hcons.2 t (by rw [hrest]; simp [ht])
  obtain ⟨ob, cb, hob, hcb, hrest'⟩ := takeBraces_sound hrest₁ ht
  have hlen₂ := takeBraces_length ht
  obtain ⟨xs, hx, h⟩ := bind_eq_ok.mp h
  have hphrase := readExpr_sound (fun t ht => hcons.2 t (by rw [hrest]; simp [ht])) he
  have has : ∀ t ∈ as, t.Consistent := fun t ht => hrest₁ t (by simp [hrest', ht])
  have hthen := readBlock_sound has hx
  intro ts ss hblock
  cases rest₂ with
  | nil =>
    cases h
    have hb := Block.branch hi ho hphrase hcl hob hthen hcb hblock
    simpa [Line.tokens, hrest, hrest'] using hb
  | cons w rest₃ =>
    simp only [readElse] at h
    split at h
    · rename_i hw
      obtain ⟨⟨bs, rest₄⟩, ht', h⟩ := bind_eq_ok.mp h
      have hrest₃ : ∀ t ∈ rest₃, t.Consistent := fun t ht => hrest₁ t (by simp [hrest', ht])
      obtain ⟨ob', cb', hob', hcb', hrest''⟩ := takeBraces_sound hrest₃ ht'
      have hlen₃ := takeBraces_length ht'
      obtain ⟨ys, hy, h⟩ := bind_eq_ok.mp h
      have hbs : ∀ t ∈ bs, t.Consistent := fun t ht => hrest₃ t (by simp [hrest'', ht])
      have helse := readBlock_sound hbs hy
      have hword := (hrest₁ w (by simp [hrest'])).isRaw hw (by decide)
      cases rest₄ with
      | nil =>
        cases h
        have hb := Block.branchElse hi ho hphrase hcl hob hthen hcb hword hob' helse hcb' hblock
        simpa [Line.tokens, hrest, hrest', hrest''] using hb
      | cons extra more => simp at h
    · simp at h
termination_by 3 * l.tokens.length
decreasing_by
  all_goals simp only [List.length_cons] at *
  all_goals omega

theorem readStatement_sound {l : Line} {s : Statement} (hc : ∀ t ∈ l.tokens, t.Consistent)
    (h : readStatement l = .ok s) : l.Means s := by
  rw [readStatement_eq] at h
  obtain ⟨⟨⟩, hb, h⟩ := bind_eq_ok.mp h
  split at h
  · rename_i hk
    refine .inl ⟨?_, by simp [hk]⟩
    split at h
    · exact readDeclaration_sound hc h
    · exact readBareDeclaration_sound hc h
  · rename_i hk
    exact .inr (readBranch_sound hc hk h)
  · rename_i hif
    refine .inl ⟨?_, hif⟩
    split at h
    · exact readCall_sound hc h
    · split at h
      · exact readAssignment_sound hc h
      · simp at h
termination_by 3 * l.tokens.length + 1

theorem readBlock_sound {ts : List Token} {ss : List Statement} (hc : ∀ t ∈ ts, t.Consistent)
    (h : readBlock ts = .ok ss) : Block ts ss := by
  obtain ⟨hx, hf⟩ := readBlock_eq_ok h
  have hcut := cutsInto_cutLines hf
  refine hcut.block hc (fun l hl s hs => ?_) hx
  exact readStatement_sound (fun t ht => hc t (hcut.mem hl ht)) hs
termination_by 3 * ts.length + 2
decreasing_by
  have := cutLines_length hl
  omega

end

end LetScript
