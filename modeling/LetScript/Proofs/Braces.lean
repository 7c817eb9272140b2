import LetScript.Proofs.Breaks

/-! The braces of a conditional. The gap in front of such a brace is found from
the word that opens the conditional, over the parentheses of the condition. Read
backwards from the gap, the same parentheses lead to the word. -/
namespace LetScript

@[simp] theorem closeOffset?_succ (d : Nat) (ts : List Token) :
    closeOffset? (d + 1) ts =
      (cutAtClose .openParen .closeParen d ts).map fun r => r.1.length := by
  induction ts generalizing d with
  | nil => rfl
  | cons t ts ih =>
    simp only [closeOffset?, cutAtClose]
    split
    · simp [ih, Option.map_map, Function.comp_def]
    · split
      · cases d with
        | zero => rfl
        | succ d => simp [ih, Option.map_map, Function.comp_def]
      · simp [ih, Option.map_map, Function.comp_def]

theorem closingParen?_of_drop {ts more : List Token} {o : Token} {i : Nat}
    (h : ts.drop i = o :: more) (ho : o.kind = .openParen) :
    closingParen? ts i = (cutAtParen more).map fun r => i + 1 + r.1.length := by
  rw [closingParen?, h, closeOffset?, if_pos ho, closeOffset?_succ, Option.map_map, Option.map_map]
  refine congrFun (congrArg _ (funext fun r => ?_)) _
  simp only [Function.comp_apply]
  omega

/-- A parenthesis is closed by the first one after a balanced list. -/
theorem closingParen?_eq_some_iff {front back : List Token} {o : Token} {j : Nat}
    (ho : o.kind = .openParen) :
    closingParen? (front ++ o :: back) front.length = some j ↔
      ∃ inside c rest, back = inside ++ c :: rest ∧ c.kind = .closeParen ∧
        Balanced .openParen .closeParen inside ∧ j = front.length + 1 + inside.length := by
  rw [closingParen?_of_drop List.drop_left ho, Option.map_eq_some_iff]
  constructor
  · rintro ⟨⟨inside, rest⟩, hcut, rfl⟩
    obtain ⟨hb, c, hc, rfl⟩ := eq_of_cutAtClose hcut
    exact ⟨inside, c, rest, rfl, hc, hb, rfl⟩
  · rintro ⟨inside, c, rest, rfl, hc, hb, rfl⟩
    exact ⟨(inside, rest), hb.cutAtClose (by decide) hc rest, rfl⟩

/-- A gap of a list tells the tokens on both sides of it. -/
theorem eq_of_gap_eq {front run back front' run' back' : List Token} {u v u' v' : Token}
    (h : front ++ u :: (run ++ v :: back) = front' ++ u' :: (run' ++ v' :: back'))
    (hg : Gap.mk front.length (front.length + 1 + run.length) =
      ⟨front'.length, front'.length + 1 + run'.length⟩) : front = front' ∧ u = u' ∧ v = v' := by
  obtain ⟨hfront, hstop⟩ := Gap.mk.inj hg
  have hrun : run.length = run'.length := by omega
  obtain ⟨rfl, hrest⟩ := List.append_inj h hfront
  obtain ⟨rfl, hafter⟩ := List.cons.inj hrest
  exact ⟨rfl, rfl, (List.cons.inj (List.append_inj hafter hrun).2).1⟩

theorem kindIs_iff {ts : List Token} {i : Nat} {k : Kind} :
    kindIs ts i k ↔ ∃ t, ts[i]? = some t ∧ t.kind = k := by
  cases h : ts[i]? <;> simp [kindIs, h]

namespace Layout

/-- The gaps of a conditional, each told from the token that it belongs to. -/
inductive BraceGap (ts : List Token) (t : Token) (i : Nat) : Gap → Prop
  | brace {j : Nat} (hk : t.kind = .closeBrace) (hj : nextSignificant? ts i = some j)
      (helse : kindIs ts j .elseWord) : BraceGap ts t i ⟨i, j⟩
  | word {j : Nat} (hk : t.kind = .elseWord) (hj : nextSignificant? ts i = some j)
      (hopen : kindIs ts j .openBrace) : BraceGap ts t i ⟨i, j⟩
  | condition {opening closing j : Nat} (hk : t.kind = .ifWord)
      (ho : nextSignificant? ts i = some opening) (hparen : kindIs ts opening .openParen)
      (hc : closingParen? ts opening = some closing) (hj : nextSignificant? ts closing = some j)
      (hopen : kindIs ts j .openBrace) : BraceGap ts t i ⟨closing, j⟩

theorem braceGap?_eq_some_iff {ts : List Token} {t : Token} {i : Nat} {g : Gap} :
    braceGap? ts t i = some g ↔ BraceGap ts t i g := by
  constructor
  · intro h
    unfold braceGap? at h
    split at h
    · simp only [bind, Option.bind_eq_some_iff, Option.filter_eq_some_iff, pure,
        Option.some.injEq] at h
      obtain ⟨opening, ⟨ho, hparen⟩, closing, hc, j, ⟨hj, hopen⟩, rfl⟩ := h
      exact .condition ‹_› ho hparen hc hj hopen
    · simp only [bind, Option.bind_eq_some_iff, Option.filter_eq_some_iff, pure,
        Option.some.injEq] at h
      obtain ⟨j, ⟨hj, helse⟩, rfl⟩ := h
      exact .brace ‹_› hj helse
    · simp only [bind, Option.bind_eq_some_iff, Option.filter_eq_some_iff, pure,
        Option.some.injEq] at h
      obtain ⟨j, ⟨hj, hopen⟩, rfl⟩ := h
      exact .word ‹_› hj hopen
    · cases h
  · intro h
    cases h with
    | brace hk hj helse => simp [braceGap?, hk, hj, helse, Option.filter]
    | word hk hj hopen => simp [braceGap?, hk, hj, hopen, Option.filter]
    | condition hk ho hparen hc hj hopen =>
      simp [braceGap?, hk, ho, hparen, hc, hj, hopen, Option.filter]

theorem mem_braceGaps {ts : List Token} {g : Gap} :
    g ∈ braceGaps ts ↔ (∃ t i, ts[i]? = some t ∧ BraceGap ts t i g) ∧ g.breaks ts ≠ 0 := by
  simp only [braceGaps, List.mem_filterMap, Option.filter_eq_some_iff, braceGap?_eq_some_iff,
    Prod.exists, List.mk_mem_zipIdx_iff_getElem?, decide_eq_true_eq]
  constructor
  · rintro ⟨t, i, ht, hg, hb⟩
    exact ⟨⟨t, i, ht, hg⟩, hb⟩
  · rintro ⟨⟨t, i, ht, hg⟩, hb⟩
    exact ⟨t, i, ht, hg, hb⟩

/-- Tokens up to the end of a condition, its word at an index. -/
inductive Condition : List Token → Nat → Prop
  | mk {as run inside : List Token} {i o : Token} (hi : i.kind = .ifWord)
      (hrun : ∀ t ∈ run, t.isTrivia) (ho : o.kind = .openParen)
      (hb : Balanced .openParen .closeParen inside) :
      Condition (as ++ i :: (run ++ o :: inside)) as.length

/-- Read backwards, a condition ends at its parenthesis, and the word is the
next token that is not trivia. -/
theorem Condition.cutAtClose {front : List Token} {n : Nat} (h : Condition front n) :
    ∃ inside rest i as, cutAtClose .closeParen .openParen 0 front.reverse = some (inside, rest) ∧
      i.kind = .ifWord ∧ significant rest = i :: significant as ∧
      ∃ k, rest.findIdx? (fun t => !t.isTrivia) = some k ∧ rest.length = k + 1 + n := by
  obtain @⟨as, run, inside, i, o, hi, hrun, ho, hb⟩ := h
  have hfront : (as ++ i :: (run ++ o :: inside)).reverse =
      inside.reverse ++ o :: (run.reverse ++ i :: as.reverse) := by simp
  have hsolid : i.isTrivia = false := by simp [Token.isTrivia, hi, Kind.isTrivia]
  have hblank : ∀ t ∈ run.reverse, t.isTrivia := by simpa using hrun
  refine ⟨inside.reverse, run.reverse ++ i :: as.reverse, i, as.reverse, ?_, hi, ?_,
    run.reverse.length, findIdx?_solid hblank hsolid, ?_⟩
  · rw [hfront, (hb.reverse (by decide)).cutAtClose (by decide) ho]
  · rw [significant_append, significant_run ⟨run.reverse, hblank⟩, List.nil_append, significant,
      List.filter_cons_of_pos (by simp [hsolid])]
    rfl
  · simp only [List.length_append, List.length_cons, List.length_reverse]
    omega

/-- The end of a condition tells where its word stands. -/
theorem Condition.index_unique {front : List Token} {m n : Nat} (h : Condition front m)
    (h' : Condition front n) : m = n := by
  obtain ⟨_, rest, _, _, hcut, -, -, k, hk, hlen⟩ := h.cutAtClose
  obtain ⟨_, rest', _, _, hcut', -, -, k', hk', hlen'⟩ := h'.cutAtClose
  obtain ⟨-, rfl⟩ := Prod.mk.inj (Option.some.inj (hcut.symm.trans hcut'))
  have := Option.some.inj (hk.symm.trans hk')
  omega

/-- The parenthesis behind these tokens, the nearest one first, closes the
condition of a conditional. -/
def closesCondition (before : List Token) : Bool :=
  match LetScript.cutAtClose .closeParen .openParen 0 before with
  | some (_, t :: _) => t.kind = .ifWord
  | _ => false

theorem closesCondition_iff {front : List Token} :
    closesCondition (significant front).reverse ↔ ∃ n, Condition front n := by
  have hrev : (significant front).reverse = significant front.reverse := by
    rw [significant, significant, List.filter_reverse]
  rw [closesCondition, hrev, cutAtClose_significant rfl rfl]
  constructor
  · intro h
    cases hcut : LetScript.cutAtClose .closeParen .openParen 0 front.reverse with
    | none => simp [hcut] at h
    | some r =>
      obtain ⟨inside, rest⟩ := r
      obtain ⟨hb, o, ho, hfront⟩ := eq_of_cutAtClose hcut
      rw [hcut, Option.map_some] at h
      cases hrest : significant rest with
      | nil => simp [hrest] at h
      | cons i us =>
        rw [hrest] at h
        obtain ⟨run, as, rfl, hrun, -, -⟩ := List.filter_eq_cons_iff.mp hrest
        obtain rfl : front = as.reverse ++ i :: (run.reverse ++ o :: inside.reverse) := by
          simpa using congrArg List.reverse hfront
        exact ⟨_, .mk (of_decide_eq_true h) (by simpa using hrun) ho
          (Balanced.reverse (by decide) hb)⟩
  · rintro ⟨n, h⟩
    obtain ⟨inside, rest, i, as, hcut, hi, hrest, -⟩ := h.cutAtClose
    rw [hcut, Option.map_some, hrest]
    exact decide_eq_true hi

theorem exists_condition {ts : List Token} {t : Token} {i opening closing : Nat}
    (ht : ts[i]? = some t) (hk : t.kind = .ifWord) (ho : nextSignificant? ts i = some opening)
    (hparen : kindIs ts opening .openParen) (hc : closingParen? ts opening = some closing) :
    ∃ front c back, ts = front ++ c :: back ∧ c.kind = .closeParen ∧ closing = front.length ∧
      Condition front i := by
  obtain ⟨as, run, o, back, rfl, hrun, hsolid, rfl, rfl⟩ := nextSignificant?_eq_some ho ht
  obtain ⟨o', ho', hok⟩ := kindIs_iff.mp hparen
  rw [getElem?_append_run] at ho'
  obtain rfl := Option.some.inj ho'
  have hfront : as ++ t :: (run ++ o :: back) = (as ++ t :: run) ++ o :: back := by simp
  have hlen : as.length + 1 + run.length = (as ++ t :: run).length := by
    simp only [List.length_append, List.length_cons]
    omega
  rw [hfront, hlen, closingParen?_eq_some_iff hok] at hc
  obtain ⟨inside, c, rest, rfl, hck, hb, rfl⟩ := hc
  refine ⟨as ++ t :: (run ++ o :: inside), c, rest, by simp, hck, ?_, .mk hk hrun hok hb⟩
  simp only [List.length_append, List.length_cons]
  omega

/-- The conditional that a condition belongs to finds the end of it. -/
theorem Condition.closing {front : List Token} {n : Nat} (h : Condition front n) {c : Token}
    (hc : c.kind = .closeParen) (back : List Token) :
    ∃ t opening, (front ++ c :: back)[n]? = some t ∧ t.kind = .ifWord ∧
      nextSignificant? (front ++ c :: back) n = some opening ∧
      kindIs (front ++ c :: back) opening .openParen ∧
      closingParen? (front ++ c :: back) opening = some front.length := by
  obtain @⟨as, run, inside, i, o, hi, hrun, ho, hb⟩ := h
  have hts : as ++ i :: (run ++ o :: inside) ++ c :: back =
      as ++ i :: (run ++ o :: (inside ++ c :: back)) := by simp
  have hts' : as ++ i :: (run ++ o :: inside) ++ c :: back =
      (as ++ i :: run) ++ o :: (inside ++ c :: back) := by simp
  have hlen : as.length + 1 + run.length = (as ++ i :: run).length := by
    simp only [List.length_append, List.length_cons]
    omega
  refine ⟨i, as.length + 1 + run.length, by simp, hi, ?_, ?_, ?_⟩
  · rw [hts, nextSignificant?_append hrun (by simp [Token.isTrivia, ho, Kind.isTrivia])]
  · rw [hts, kindIs_iff, getElem?_append_run]
    exact ⟨o, rfl, ho⟩
  · rw [hts', hlen, closingParen?_eq_some_iff ho]
    refine ⟨inside, c, back, rfl, hc, hb, ?_⟩
    simp only [List.length_append, List.length_cons]
    omega

/-- The token at an index owns the gap between two tokens: the first of them, or
the word of the condition that the first one closes. -/
inductive Owner (front : List Token) (u v : Token) : Nat → Prop
  | brace (hu : u.kind = .closeBrace) (hv : v.kind = .elseWord) : Owner front u v front.length
  | word (hu : u.kind = .elseWord) (hv : v.kind = .openBrace) : Owner front u v front.length
  | condition {i : Nat} (hu : u.kind = .closeParen) (hv : v.kind = .openBrace)
      (hc : Condition front i) : Owner front u v i

theorem Owner.unique {front : List Token} {u v : Token} {i j : Nat} (h : Owner front u v i)
    (h' : Owner front u v j) : i = j := by
  cases h <;> cases h' <;> simp_all
  exact Condition.index_unique ‹_› ‹_›

theorem Owner.solid {front : List Token} {u v : Token} {i : Nat} (h : Owner front u v i) :
    u.isTrivia = false := by
  cases h <;> simp [Token.isTrivia, Kind.isTrivia, *]

theorem BraceGap.owner {ts : List Token} {t : Token} {i : Nat} {g : Gap} (h : BraceGap ts t i g)
    (ht : ts[i]? = some t) :
    ∃ front u run v back, ts = front ++ u :: (run ++ v :: back) ∧ (∀ t ∈ run, t.isTrivia) ∧
      v.isTrivia = false ∧ g = ⟨front.length, front.length + 1 + run.length⟩ ∧
      Owner front u v i := by
  have hnext {u : Token} {k j : Nat} {kind : Kind} (hu : ts[k]? = some u)
      (hj : nextSignificant? ts k = some j) (hkind : kindIs ts j kind) :
      ∃ front run v back, ts = front ++ u :: (run ++ v :: back) ∧ (∀ t ∈ run, t.isTrivia) ∧
        v.isTrivia = false ∧ k = front.length ∧ j = front.length + 1 + run.length ∧
        v.kind = kind := by
    obtain ⟨front, run, v, back, rfl, hrun, hv, rfl, rfl⟩ := nextSignificant?_eq_some hj hu
    obtain ⟨v', hv', hk⟩ := kindIs_iff.mp hkind
    rw [getElem?_append_run] at hv'
    obtain rfl := Option.some.inj hv'
    exact ⟨front, run, v, back, rfl, hrun, hv, rfl, rfl, hk⟩
  cases h with
  | brace hk hj helse =>
    obtain ⟨front, run, v, back, hts, hrun, hv, rfl, rfl, hvk⟩ := hnext ht hj helse
    exact ⟨front, t, run, v, back, hts, hrun, hv, rfl, .brace hk hvk⟩
  | word hk hj hopen =>
    obtain ⟨front, run, v, back, hts, hrun, hv, rfl, rfl, hvk⟩ := hnext ht hj hopen
    exact ⟨front, t, run, v, back, hts, hrun, hv, rfl, .word hk hvk⟩
  | condition hk ho hparen hc hj hopen =>
    obtain ⟨front, c, after, hts, hck, rfl, hcond⟩ := exists_condition ht hk ho hparen hc
    obtain ⟨front', run, v, back, hts', hrun, hv, hlen, rfl, hvk⟩ :=
      hnext (u := c) (by simp [hts]) hj hopen
    obtain ⟨rfl, -⟩ := List.append_inj (hts.symm.trans hts') hlen
    exact ⟨front, c, run, v, back, hts', hrun, hv, rfl, .condition hck hvk hcond⟩

theorem Owner.braceGap {front run back : List Token} {u v : Token} {i : Nat}
    (h : Owner front u v i) (hrun : ∀ t ∈ run, t.isTrivia) (hv : v.isTrivia = false) :
    ∃ t, (front ++ u :: (run ++ v :: back))[i]? = some t ∧
      BraceGap (front ++ u :: (run ++ v :: back)) t i
        ⟨front.length, front.length + 1 + run.length⟩ := by
  have hnext : nextSignificant? (front ++ u :: (run ++ v :: back)) front.length =
      some (front.length + 1 + run.length) := nextSignificant?_append hrun hv
  have hkind {k : Kind} (hvk : v.kind = k) :
      kindIs (front ++ u :: (run ++ v :: back)) (front.length + 1 + run.length) k :=
    kindIs_iff.mpr ⟨v, getElem?_append_run front run back u v, hvk⟩
  cases h with
  | brace hu hvk => exact ⟨u, by simp, .brace hu hnext (hkind hvk)⟩
  | word hu hvk => exact ⟨u, by simp, .word hu hnext (hkind hvk)⟩
  | condition hu hvk hc =>
    obtain ⟨t, opening, ht, hk, ho, hparen, hclosing⟩ := hc.closing hu (run ++ v :: back)
    exact ⟨t, ht, .condition hk ho hparen hclosing hnext (hkind hvk)⟩

/-- Two neighbours of a conditional that belong on one line. -/
def joined (before : List Token) (next : Token) : Bool :=
  match before with
  | [] => false
  | u :: us =>
    (u.kind = .closeBrace && next.kind = .elseWord) ||
    (u.kind = .elseWord && next.kind = .openBrace) ||
    (u.kind = .closeParen && next.kind = .openBrace && closesCondition us)

theorem joined_iff {front : List Token} {u v : Token} :
    joined (u :: (significant front).reverse) v ↔ ∃ i, Owner front u v i := by
  simp only [joined, Bool.or_eq_true, Bool.and_eq_true, decide_eq_true_eq, closesCondition_iff]
  constructor
  · rintro ((⟨hu, hv⟩ | ⟨hu, hv⟩) | ⟨⟨hu, hv⟩, i, hc⟩)
    · exact ⟨_, .brace hu hv⟩
    · exact ⟨_, .word hu hv⟩
    · exact ⟨i, .condition hu hv hc⟩
  · rintro ⟨i, ⟨hu, hv⟩ | ⟨hu, hv⟩ | ⟨hu, hv, hc⟩⟩
    · exact .inl (.inl ⟨hu, hv⟩)
    · exact .inl (.inr ⟨hu, hv⟩)
    · exact .inr ⟨⟨hu, hv⟩, i, hc⟩

theorem joined_kind {u v : Token} {us : List Token} (h : joined (u :: us) v) :
    u.kind ≠ .semicolon ∧ (v.kind = .elseWord ∨ v.kind = .openBrace) := by
  simp only [joined, Bool.or_eq_true, Bool.and_eq_true, decide_eq_true_eq] at h
  rcases h with (⟨hu, hv⟩ | ⟨hu, hv⟩) | ⟨⟨hu, hv⟩, -⟩ <;> simp [hu, hv]

/-- A line break inside a conditional where none belongs. -/
def braceFault (before run : List Token) (next : Token) : Bool :=
  joined before next && Blank.breaks run ≠ 0

theorem braceGaps_chosen (s : Sheet) : s.Chosen braceFault (braceGaps s.tokens) where
  nodup := nodup_filterMap_zipIdx fun t i u j g ht hu hi hj => by
    have hi := braceGap?_eq_some_iff.mp (Option.filter_eq_some_iff.mp hi).1
    have hj := braceGap?_eq_some_iff.mp (Option.filter_eq_some_iff.mp hj).1
    obtain ⟨front, a, run, b, back, hts, -, -, rfl, howner⟩ := hi.owner ht
    obtain ⟨front', a', run', b', back', hts', -, -, hg, howner'⟩ := hj.owner hu
    obtain ⟨rfl, rfl, rfl⟩ := eq_of_gap_eq (hts.symm.trans hts') hg
    exact howner.unique howner'
  sub g hg := by
    obtain ⟨⟨t, i, ht, hgap⟩, -⟩ := mem_braceGaps.mp hg
    obtain ⟨front, u, run, v, back, hts, hrun, hv, rfl, howner⟩ := hgap.owner ht
    refine s.mem_gaps (u := u) (by simp [hts]) howner.solid ?_
    rw [hts, nextSignificant?_append hrun hv]
  mem_iff front c d cs hs := by
    rw [mem_braceGaps, hs, joinCells_cons c, breaks_between, joinCells_cons d, braceFault,
      Bool.and_eq_true, joined_iff, decide_eq_true_eq]
    refine and_congr_left fun _ => ⟨?_, ?_⟩
    · rintro ⟨t, i, ht, hgap⟩
      obtain ⟨front', u, run, v, back, hts, -, -, hg, howner⟩ := hgap.owner ht
      obtain ⟨rfl, rfl, rfl⟩ := eq_of_gap_eq hts hg
      exact ⟨i, howner⟩
    · rintro ⟨i, howner⟩
      obtain ⟨t, ht, hgap⟩ := howner.braceGap c.run.blank d.solid
      exact ⟨t, i, ht, hgap⟩

def bracesMend : Mend :=
  .between braceFault (fun u _ => [.space u.position])
    (fun u run t ht => .inr ⟨u.position, .inl (by simpa using ht)⟩) (by simp)

theorem bracesMend_filled (before run : List Token) (next : Option Token) :
    Filled braceFault (fun u _ => [.space u.position]) before run next
      (bracesMend.apply before run next) := Mend.between_filled before run next

theorem fixBraces_tokens (s : Sheet) : fixBraces s.tokens = (s.mend bracesMend).tokens :=
  (braceGaps_chosen s).fillGaps_tokens (fillsBy_placeAt .space) _ _

theorem checkBraces_tokens (s : Sheet) :
    checkBraces s.tokens = [] ↔
      s.Holds fun before run next => flawless braceFault before run.tokens next := by
  rw [checkBraces, List.map_eq_nil_iff, (braceGaps_chosen s).eq_nil_iff]

end Layout
end LetScript
