import LetScript.Proofs.Remark
import LetScript.Proofs.Simultaneous

/-! The order of the findings. Main statement: in a program, the findings of each rule come in the
order of the text, so the one that linting stops at is the earliest of its rule. -/
namespace LetScript

/-- Remarks that come in the order of the text. -/
def InOrder (ms : List Remark) : Prop := ms.Pairwise fun m n => m.position < n.position

/-! ### Rules that go through the tokens one by one -/

/-- Remarks that stand at the tokens they are made at. -/
theorem inOrder_filterMap {α : Type} {l : List α} {token : α → Token} {f : α → Option Remark}
    (hl : (l.map token).Pairwise fun t u => t.position < u.position)
    (hf : ∀ a m, f a = some m → m.position = (token a).position) : InOrder (l.filterMap f) := by
  rw [List.pairwise_map] at hl
  rw [InOrder, List.pairwise_filterMap]
  refine hl.imp fun {a b} hlt m hm n hn => ?_
  rw [hf a m hm, hf b n hn]
  exact hlt

section
variable {ts : List Token} (hts : ts.Pairwise fun t u => t.position < u.position)
include hts

theorem Naming.check_inOrder (accepts : List Char → Bool) (violation : String → Violation) :
    InOrder (check accepts violation ts) := by
  refine @inOrder_filterMap _ ts id _ (by simpa using hts) fun t m hm => ?_
  split at hm
  · obtain ⟨-, hm⟩ := Option.ite_none_left_eq_some.mp hm
    cases hm
    rfl
  · exact nomatch hm

theorem Argument.check_inOrder (f : Builtin) : InOrder (check f ts) := by
  refine @inOrder_filterMap _ ts.zipIdx Prod.fst _ (by simpa using hts) fun a m hm => ?_
  obtain ⟨-, hm⟩ := Option.ite_none_right_eq_some.mp hm
  cases hm
  rfl

theorem Blank.checkSpaces_inOrder : InOrder (checkSpaces ts) := by
  refine @inOrder_filterMap _ (markSpaces .lineStart ts) Prod.fst _ ?_ fun a m hm => ?_
  · rwa [map_fst_markSpaces]
  · obtain ⟨-, hm⟩ := Option.ite_none_right_eq_some.mp hm
    cases hm
    rfl

theorem Blank.checkLines_inOrder : InOrder (checkLines ts) := by
  refine @inOrder_filterMap _ (markLines 0 ts) Prod.fst _ ?_ fun a m hm => ?_
  · rwa [map_fst_markLines]
  · obtain ⟨-, hm⟩ := Option.ite_none_right_eq_some.mp hm
    cases hm
    rfl

end

namespace Padding

theorem unpaddedFrom_inOrder {s : Sides} {before : Option Token} {ms : List Marked}
    (hms : (ms.map Marked.token).Pairwise fun t u => t.position < u.position) :
    InOrder (unpaddedFrom s before ms) := by
  induction ms generalizing before with
  | nil => exact .nil
  | cons k ms ih =>
    rw [List.map_cons, List.pairwise_cons] at hms
    have hrest := @ih (some k.token) hms.2
    rw [unpaddedFrom]
    split
    · split
      · refine List.pairwise_cons.mpr ⟨fun m hm => ?_, hrest⟩
        obtain ⟨xs, k', ys, rfl, -, hposition, -⟩ := lacks_of_mem hm
        rw [hposition]
        exact hms.1 k'.token (List.mem_map_of_mem (List.mem_append_right xs List.mem_cons_self))
      · exact hrest
    · exact hrest

theorem check_inOrder (s : Sides) (target : Target) {ts : List Token}
    (hts : ts.Pairwise fun t u => t.position < u.position) : InOrder (check s target ts) := by
  refine unpaddedFrom_inOrder ?_
  rwa [mark, map_token_markFrom]

end Padding

/-! ### Rules on gaps -/

namespace Layout

section
variable {ts : List Token} (hts : ts.Pairwise fun t u => t.position < u.position)
include hts

theorem placeAt_lt {i j : Nat} (hij : i < j) (hj : j < ts.length) :
    placeAt ts i < placeAt ts j := by
  have hi : i < ts.length := Nat.lt_trans hij hj
  rw [placeAt_of_getElem? (List.getElem?_eq_getElem hi),
    placeAt_of_getElem? (List.getElem?_eq_getElem hj)]
  exact List.pairwise_iff_getElem.mp hts i j hi hj hij

theorem checkStatements_inOrder : InOrder (checkStatements ts) := by
  rw [checkStatements, InOrder, List.pairwise_map, statementGaps]
  refine pairwise_filterMap_zipIdx fun t i u j g h _ hj hij hg hh => ?_
  obtain ⟨rfl, -⟩ := statementGap_eq_some.mp hg
  obtain ⟨rfl, -⟩ := statementGap_eq_some.mp hh
  exact placeAt_lt hts hij (List.getElem?_eq_some_iff.mp hj).1

theorem checkPrintln_inOrder (blankLines : Nat) : InOrder (checkPrintln blankLines ts) := by
  have hgaps : (printlnGaps blankLines ts).Pairwise fun g h =>
      placeAt ts g.stop < placeAt ts h.stop := by
    refine pairwise_filterMap_zipIdx fun t i u j g h _ hj hij hg hh => ?_
    obtain ⟨rfl, -⟩ := printlnGap_eq_some.mp hg
    obtain ⟨rfl, -⟩ := printlnGap_eq_some.mp hh
    exact placeAt_lt hts hij (List.getElem?_eq_some_iff.mp hj).1
  rw [checkPrintln, InOrder, List.pairwise_filterMap]
  refine hgaps.imp fun {g h} hlt m hm n hn => ?_
  obtain ⟨-, -, rfl⟩ := Option.map_eq_some_iff.mp hm
  obtain ⟨-, -, rfl⟩ := Option.map_eq_some_iff.mp hn
  exact hlt

end

end Layout

/-- Behind each `if` comes a condition in parentheses, and nothing but an expression in them. -/
def Conditioned (ts : List Token) : Prop :=
  ∀ front i rest, ts = front ++ i :: rest → i.kind = .ifWord →
    ∃ o cs c more, rest = o :: (cs ++ c :: more) ∧ c.kind = .closeParen ∧
      Balanced .openParen .closeParen cs ∧ ∀ t ∈ cs, t.inExpression

namespace Conditioned

variable {us vs : List Token}

theorem of_forall (h : ∀ t ∈ us, t.kind ≠ .ifWord) : Conditioned us := by
  rintro front i rest rfl hi
  exact absurd hi (h i (by simp))

theorem nil : Conditioned [] := of_forall (List.forall_mem_nil _)

theorem append (hu : Conditioned us) (hv : Conditioned vs) : Conditioned (us ++ vs) := by
  intro front i rest h hi
  rcases List.append_eq_append_iff.mp h with ⟨as, rfl, hvs⟩ | ⟨as, hus, hrest⟩
  · exact hv as i rest hvs hi
  · cases as with
    | nil => exact hv [] i rest hrest.symm hi
    | cons a as =>
      obtain ⟨rfl, rfl⟩ := List.cons.inj hrest
      obtain ⟨o, cs, c, more, rfl, hc, hb, hin⟩ := hu front i as hus hi
      exact ⟨o, cs, c, more ++ vs, by simp, hc, hb, hin⟩

theorem cons {t : Token} (ht : t.kind ≠ .ifWord) (h : Conditioned us) : Conditioned (t :: us) :=
  have hfirst : Conditioned [t] := of_forall (List.forall_mem_singleton.mpr ht)
  hfirst.append h

theorem raw {t : Token} {k : Kind} (ht : t.IsRaw k) (hk : k ≠ .ifWord) (h : Conditioned us) :
    Conditioned (t :: us) := cons (by rwa [ht.kind]) h

theorem enclosed {o c : Token} {opening closing : Kind} (ho : o.IsRaw opening)
    (hc : c.IsRaw closing) (hk : opening ≠ .ifWord ∧ closing ≠ .ifWord) (h : Conditioned us) :
    Conditioned (o :: (us ++ [c])) :=
  raw ho hk.1 (h.append (raw hc hk.2 nil))

end Conditioned

/-- The tokens that a gap of a conditional can belong to. -/
def Layout.heads : List Kind := [.ifWord, .elseWord, .closeBrace]

theorem kind_of_inExpression {t : Token} (h : t.inExpression) : t.kind ∉ Layout.heads := by
  intro hk
  simp only [Layout.heads, List.mem_cons, List.not_mem_nil, or_false] at hk
  rcases hk with hk | hk | hk <;> simp [Token.inExpression, hk] at h

theorem Phrase.conditioned {l : Level} {cs : List Token} {e : Expr} (h : Phrase l cs e) :
    Conditioned cs := by
  refine .of_forall fun t ht hk => ?_
  have hin := kind_of_inExpression (h.inExpression t ht)
  simp [hk, Layout.heads] at hin

theorem Simple.conditioned {ls : List Token} {s : Statement} (h : Simple ls s) :
    Conditioned ls := by
  cases h with
  | bare q r hd hlet hc => exact .of_forall (by simp [hd.kind, hc.kind])
  | declaration q r u hd hc hp =>
    exact .raw hd (by decide) (.cons nofun (.raw hc (by decide) (.cons nofun
      (.cons nofun hp.conditioned))))
  | call p ho hc hp =>
    exact .cons nofun (.enclosed ho hc (by decide) hp.conditioned)
  | assign p q hp => exact .cons nofun (.cons nofun hp.conditioned)

theorem conditioned_condition {i o c : Token} {cs : List Token} {e : Expr} (ho : o.IsRaw .openParen)
    (he : Phrase .sum cs e) (hc : c.IsRaw .closeParen) : Conditioned (i :: o :: (cs ++ [c])) := by
  have hin : Conditioned (o :: (cs ++ [c])) :=
    .enclosed ho hc (by decide) he.conditioned
  intro front j rest h hj
  cases front with
  | nil =>
    obtain ⟨rfl, rfl⟩ := List.cons.inj h
    exact ⟨o, cs, c, [], rfl, hc.kind, he.balanced, he.inExpression⟩
  | cons f front => exact hin front j rest (List.cons.inj h).2 hj

theorem Block.conditioned {ts : List Token} {ss : List Statement} (h : Block ts ss) :
    Conditioned ts := by
  induction h with
  | nil => exact .nil
  | empty ht h ih => exact .raw ht (by decide) ih
  | simple hs ht h ih => exact hs.conditioned.append (.raw ht (by decide) ih)
  | branch hi ho he hc hob ha hcb h iha ih =>
    exact ((conditioned_condition ho he hc).append (.enclosed hob hcb (by decide) iha)).append ih
  | branchElse hi ho he hc hob ha hcb hw hob' hb hcb' h iha ihb ih =>
    exact (((conditioned_condition ho he hc).append (.enclosed hob hcb (by decide) iha)).append
      (.raw hw (by decide) (.enclosed hob' hcb' (by decide) ihb))).append ih

namespace Layout

theorem not_mem_heads_of_isTrivia {t : Token} (ht : t.isTrivia) : t.kind ∉ heads := by
  intro hk
  simp only [heads, List.mem_cons, List.not_mem_nil, or_false] at hk
  rcases hk with hk | hk | hk <;> simp [Token.isTrivia, Kind.isTrivia, hk] at ht

/-- No other conditional begins or goes on in the condition of one. -/
theorem not_mem_heads_of_condition {as run inside back : List Token} {i o c : Token}
    (h : Conditioned (significant (as ++ i :: (run ++ o :: (inside ++ c :: back)))))
    (hi : i.kind = .ifWord) (hrun : ∀ t ∈ run, t.isTrivia) (ho : o.kind = .openParen)
    (hb : Balanced .openParen .closeParen inside) (hc : c.kind = .closeParen) :
    ∀ t ∈ inside, t.kind ∉ heads := by
  have hts : significant (as ++ i :: (run ++ o :: (inside ++ c :: back))) =
      significant as ++ i :: o :: significant (inside ++ c :: back) := by
    have hrun' := significant_run ⟨run, hrun⟩
    simp only [significant] at hrun' ⊢
    rw [List.filter_append, List.filter_cons_of_pos (by simp [Token.isTrivia, hi, Kind.isTrivia]),
      List.filter_append, hrun', List.nil_append,
      List.filter_cons_of_pos (by simp [Token.isTrivia, ho, Kind.isTrivia])]
  obtain ⟨o', cs, c', more, hrest, hc', hb', hin⟩ := h _ i _ hts hi
  have hcut := @cutAtClose_significant .openParen .closeParen rfl rfl 0 (inside ++ c :: back)
  rw [(List.cons.inj hrest).2, hb'.cutAtClose (by decide) hc', hb.cutAtClose (by decide) hc,
    Option.map_some] at hcut
  obtain ⟨rfl, -⟩ := Prod.mk.inj (Option.some.inj hcut)
  intro t ht
  by_cases htrivia : t.isTrivia
  · exact not_mem_heads_of_isTrivia htrivia
  · exact kind_of_inExpression (hin t (List.mem_filter.mpr ⟨ht, by simpa using htrivia⟩))

namespace BraceGap

variable {ts : List Token} {t u : Token} {i j : Nat} {g h : Gap}

theorem kind_mem (hg : BraceGap ts t i g) : t.kind ∈ heads := by
  cases hg <;> simp [heads, *]

theorem proper (hg : BraceGap ts t i g) (ht : ts[i]? = some t) : g.Proper ts := by
  obtain ⟨front, u, run, v, back, rfl, hrun, hv, rfl, howner⟩ := hg.owner ht
  exact proper_append howner.solid hrun hv

theorem le_start (hg : BraceGap ts t i g) (ht : ts[i]? = some t) : i ≤ g.start := by
  cases hg with
  | brace | word => exact Nat.le_refl i
  | condition hk ho hparen hc =>
    obtain ⟨front, c, back, -, -, rfl, hcond⟩ := exists_condition ht hk ho hparen hc
    cases hcond
    simp

/-- A gap begins before the next token that can have one. -/
theorem start_lt (hts : Conditioned (significant ts)) (hg : BraceGap ts t i g)
    (ht : ts[i]? = some t) (hu : ts[j]? = some u) (hk : u.kind ∈ heads) (hij : i < j) :
    g.start < j := by
  cases hg with
  | brace | word => exact hij
  | condition hif hnext hparen hc =>
    obtain ⟨front, c, back, rfl, hck, rfl, hcond⟩ := exists_condition ht hif hnext hparen hc
    obtain @⟨as, run, inside, w, o, hw, hrun, ho, hb⟩ := hcond
    have hsplit : as ++ w :: (run ++ o :: inside) ++ c :: back =
        as ++ w :: (run ++ o :: (inside ++ c :: back)) := by simp
    have hbehind : as ++ w :: (run ++ o :: inside) ++ c :: back =
        as ++ w :: ((run ++ o :: (inside ++ [c])) ++ back) := by simp
    rw [hsplit] at hts
    have hquiet : ∀ t ∈ run ++ o :: (inside ++ [c]), t.kind ∉ heads := by
      refine List.forall_mem_append.mpr ⟨fun t ht => not_mem_heads_of_isTrivia (hrun t ht), ?_⟩
      refine List.forall_mem_cons.mpr ⟨by simp [ho, heads], List.forall_mem_append.mpr ⟨?_, ?_⟩⟩
      · exact not_mem_heads_of_condition hts hw hrun ho hb hck
      · exact List.forall_mem_singleton.mpr (by simp [hck, heads])
    by_contra hle
    obtain ⟨k, rfl⟩ : ∃ k, j = as.length + 1 + k := ⟨j - (as.length + 1), by omega⟩
    simp only [List.length_append, List.length_cons] at hle
    rw [hbehind, getElem?_behind, List.getElem?_append_left
      (by simp only [List.length_append, List.length_cons, List.length_nil]; omega)] at hu
    exact hquiet u (List.mem_of_getElem? hu) hk

theorem stop_lt (hts : Conditioned (significant ts)) (hg : BraceGap ts t i g)
    (ht : ts[i]? = some t) (hh : BraceGap ts u j h) (hu : ts[j]? = some u) (hij : i < j) :
    g.stop < h.stop := by
  have hstart := hg.start_lt hts ht hu hh.kind_mem hij
  have hsolid : Solid ts j :=
    ⟨u, hu, by simpa using fun htrivia => not_mem_heads_of_isTrivia htrivia hh.kind_mem⟩
  have hstop : g.stop ≤ j := by
    by_contra hlt
    exact (hg.proper ht).between j hstart (by omega) hsolid
  calc g.stop ≤ j := hstop
    _ ≤ h.start := hh.le_start hu
    _ < h.stop := (hh.proper hu).lt

end BraceGap

theorem checkBraces_inOrder {ts : List Token}
    (hts : ts.Pairwise fun t u => t.position < u.position) (hc : Conditioned (significant ts)) :
    InOrder (checkBraces ts) := by
  rw [checkBraces, InOrder, List.pairwise_map, braceGaps]
  refine pairwise_filterMap_zipIdx fun t i u j g h hi hj hij hg hh => ?_
  have hg := braceGap?_eq_some_iff.mp (Option.filter_eq_some_iff.mp hg).1
  have hh := braceGap?_eq_some_iff.mp (Option.filter_eq_some_iff.mp hh).1
  exact placeAt_lt hts (hg.stop_lt hc hi hh hj hij) (hh.proper hj).stop.lt_length

end Layout

/-! ### All rules -/

theorem StyleRule.remarks_inOrder (r : StyleRule) {ts : List Token}
    (hts : ts.Pairwise fun t u => t.position < u.position) (hc : Conditioned (significant ts)) :
    InOrder (r.remarks ts) := by
  cases r with
  | camelCase | snakeCase | pascalCase => exact Naming.check_inOrder hts _ _
  | spaceBeforeColon | spaceAfterColon | spaceAroundEqual | spaceAroundOperator =>
    exact Padding.check_inOrder _ _ hts
  | oneSpaceAfterToken => exact Blank.checkSpaces_inOrder hts
  | newlineAfterSemicolon => exact Layout.checkStatements_inOrder hts
  | newlineBeforePrintln n => exact Layout.checkPrintln_inOrder hts n
  | maxOneBlankLine => exact Blank.checkLines_inOrder hts
  | ifBraceSameLine => exact Layout.checkBraces_inOrder hts hc
  | printlnSimpleArgument | readInputSimpleArgument => exact Argument.check_inOrder hts _

/-- A finding of the first rule that has any, before all others of that rule. -/
def Earliest (rs : List StyleRule) (ts : List Token) (f : Finding) : Prop :=
  ∃ front r back, rs = front ++ r :: back ∧ (∀ q ∈ front, q.check ts = []) ∧ f ∈ r.check ts ∧
    ∀ g ∈ r.check ts, g ≠ f → f.position < g.position

theorem head?_eq_some_iff_earliest {fs : List Finding} {f : Finding}
    (hfs : fs.Pairwise fun f g => f.position < g.position) :
    fs.head? = some f ↔ f ∈ fs ∧ ∀ g ∈ fs, g ≠ f → f.position < g.position := by
  cases fs with
  | nil => simp
  | cons g fs =>
    rw [List.pairwise_cons] at hfs
    rw [List.head?_cons, Option.some.injEq]
    constructor
    · rintro rfl
      refine ⟨List.mem_cons_self, fun h hh hne => ?_⟩
      rcases List.mem_cons.mp hh with rfl | hh
      · exact absurd rfl hne
      · exact hfs.1 h hh
    · rintro ⟨hf, hfirst⟩
      by_contra hne
      rcases List.mem_cons.mp hf with rfl | hf
      · exact hne rfl
      · exact Position.lt_asymm (hfs.1 f hf) (hfirst g List.mem_cons_self hne)

theorem firstFinding?_eq_head? (rs : List StyleRule) (ts : List Token) :
    firstFinding? rs ts = (findings rs ts).head? := by
  rw [firstFinding?, findings, List.head?_flatMap]

theorem firstFinding?_eq_some_iff {rs : List StyleRule} {ts : List Token} {f : Finding}
    (hrs : ∀ r : StyleRule, (r.check ts).Pairwise fun f g => f.position < g.position) :
    firstFinding? rs ts = some f ↔ Earliest rs ts f := by
  rw [firstFinding?, List.findSome?_eq_some_iff]
  simp only [List.head?_eq_none_iff, head?_eq_some_iff_earliest (hrs _)]
  constructor
  · rintro ⟨front, r, back, rfl, hf, hfront⟩
    exact ⟨front, r, back, rfl, hfront, hf⟩
  · rintro ⟨front, r, back, rfl, hfront, hf⟩
    exact ⟨front, r, back, rfl, hf, hfront⟩

theorem lintText_eq_style_iff {source version : String} {ts : List Token} {c : Config}
    {f : Finding} (h : tokenize source version = .ok ts) :
    lintText source version c = .error (.style f) ↔ firstFinding? c.rules ts = some f := by
  simp only [lintText, h]
  cases hf : firstFinding? c.rules ts <;> simp

/-- In a program the findings of each rule come in the order of the text. Linting stops at the
earliest one of the first rule that has any, and this is the first one of a report. -/
theorem findings_inOrder (source version : String) (ts : List Token) (ss : List Statement)
    (h : tokenize source version = .ok ts) (hp : parse ts = .ok ss) :
    (∀ r : StyleRule, (r.check ts).Pairwise fun f g => f.position < g.position) ∧
    (∀ (rs : List StyleRule) (f : Finding),
      firstFinding? rs ts = some f ↔ Earliest rs ts f) ∧
    (∀ rs : List StyleRule, firstFinding? rs ts = (findings rs ts).head?) ∧
    ∀ (c : Config) (f : Finding), lintText source version c = .error (.style f) ↔
      firstFinding? c.rules ts = some f := by
  have hblock : Block (significant ts) ss :=
    readBlock_sound (fun t ht => consistent_of_tokenize h t (List.mem_of_mem_filter ht)) hp
  have horder : ∀ r : StyleRule,
      (r.check ts).Pairwise fun f g => f.position < g.position := by
    intro r
    rw [StyleRule.check, List.pairwise_map]
    exact r.remarks_inOrder (tokenize_increasing h) hblock.conditioned
  exact ⟨horder, fun rs f => firstFinding?_eq_some_iff horder,
    fun rs => firstFinding?_eq_head? rs ts, fun c f => lintText_eq_style_iff h⟩

/-- The tokens of a conditional in another, each brace on a line of its own. -/
def brokenBraces : List Token :=
  [.raw .ifWord "if" ⟨1, 0⟩, .raw .openParen "(" ⟨1, 2⟩, .identifier "a" ⟨1, 3⟩,
    .raw .closeParen ")" ⟨1, 4⟩, .lineBreak ⟨1, 5⟩, .raw .openBrace "\x7b" ⟨2, 0⟩,
    .raw .ifWord "if" ⟨2, 1⟩, .raw .openParen "(" ⟨2, 3⟩, .identifier "b" ⟨2, 4⟩,
    .raw .closeParen ")" ⟨2, 5⟩, .lineBreak ⟨2, 6⟩, .raw .openBrace "\x7b" ⟨3, 0⟩,
    .raw .closeBrace "\x7d" ⟨3, 1⟩, .raw .elseWord "else" ⟨3, 2⟩, .lineBreak ⟨3, 6⟩,
    .raw .openBrace "\x7b" ⟨4, 0⟩, .raw .closeBrace "\x7d" ⟨4, 1⟩,
    .raw .closeBrace "\x7d" ⟨4, 2⟩]

theorem findings_inOrder_brokenBraces :
    let source := "if(a)\n\x7bif(b)\n\x7b\x7delse\n\x7b\x7d\x7d"
    let rule := StyleRule.ifBraceSameLine
    let f : Finding := ⟨rule, .braceOnNewLine, ⟨2, 0⟩⟩
    let config : Config := ⟨["if-brace-same-line", "camel-case"], 0⟩
    tokenize source "1.1" = .ok brokenBraces ∧ (∃ ss, parse brokenBraces = .ok ss) ∧
      (rule.check brokenBraces).map Finding.position = [⟨2, 0⟩, ⟨3, 0⟩, ⟨4, 0⟩] ∧
      (rule.check brokenBraces).Pairwise (fun f g => f.position < g.position) ∧
      lintText source "1.1" config = .error (.style f) ∧
      Earliest config.rules brokenBraces f := by
  intro source rule f config
  have h : tokenize source "1.1" = .ok brokenBraces := by decide +kernel
  have hfound : firstFinding? config.rules brokenBraces = some f := by decide +kernel
  obtain ⟨ss, hp⟩ := exists_of_isOk (show (parse brokenBraces).isOk by decide +kernel)
  obtain ⟨horder, hfirst, -, hlint⟩ := findings_inOrder source "1.1" brokenBraces ss h hp
  exact ⟨h, ⟨ss, hp⟩, by decide +kernel, horder rule, (hlint config f).mpr hfound,
    (hfirst config.rules f).mp hfound⟩

end LetScript
