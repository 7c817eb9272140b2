import LetScript.Proofs.Agreement
import LetScript.Proofs.Frame

/-! Reading formatted text back. It is read as the formatted tokens, places
included, unless a number is too large, and formatting it again changes nothing. -/
namespace LetScript

/-! ### Reading a spelling -/

/-- Spelled tokens are read back exactly if none of them is an infinite number. -/
theorem Spellable.tokensFrom_eq_ok_iff {v : Version} {ts : List Token} (h : Spellable v ts)
    (p : Position) :
    LetScript.tokensFrom v.rules p (spell ts) = .ok (placeFrom p ts) ↔ ∀ t ∈ ts, t.IsBounded := by
  refine ⟨fun hread => ?_, fun hb => h.tokensFrom hb p⟩
  induction ts generalizing p with
  | nil => simp
  | cons t ts ih =>
    have htail : Spellable v ts := ⟨fun u hu => h.readIn u (by simp [hu]), h.mayMeet.tail⟩
    by_cases hb : t.IsBounded
    · rw [tokensFrom_of_takes (h.takes hb), placeFrom] at hread
      obtain ⟨ts', hts', heq⟩ := map_eq_ok.mp hread
      obtain ⟨-, rfl⟩ := List.cons.inj heq
      exact List.forall_mem_cons.mpr ⟨hb, ih htail _ hts'⟩
    · obtain ⟨hkind, hspell⟩ := (h.readIn t (by simp)).spelling_of_unbounded hb
      rw [spell_cons, hspell, placeFrom] at hread
      obtain ⟨hnil, -⟩ | ⟨l, ts', htakes, -, heq⟩ := tokensFrom_eq_ok hread
      · cases hnil
      · obtain ⟨hl, -⟩ := List.cons.inj heq
        have hnumber : l.kind = .number := (congrArg Token.kind hl).symm.trans hkind
        obtain ⟨c, cs, hcs, -, hdigit, -⟩ := htakes.front
        obtain ⟨rfl, -⟩ := List.cons.inj hcs
        rw [hnumber] at hdigit
        exact absurd hdigit (by decide)

theorem Spellable.of_erase {v : Version} {ts ts' : List Token} (h : Spellable v ts)
    (herase : ts'.map Token.erase = ts.map Token.erase) : Spellable v ts' := by
  have hread : ∀ t ∈ ts.map Token.erase, t.ReadIn v := List.forall_mem_map.mpr h.readIn
  have hmeet : (ts.map Token.erase).IsChain fun t u => t.kind.mayMeet u.kind :=
    (List.isChain_map _).mpr h.mayMeet
  rw [← herase] at hread hmeet
  exact ⟨(List.forall_mem_map (f := Token.erase)).mp hread, (List.isChain_map _).mp hmeet⟩

@[simp] theorem placeFrom_placeFrom (p : Position) (ts : List Token) :
    placeFrom p (placeFrom p ts) = placeFrom p ts := by
  induction ts generalizing p with
  | nil => rfl
  | cons t ts ih => exact congrArg (List.cons _) (ih (p.advance t.spelling))

@[simp] theorem place_format (rs : List StyleRule) (ts : List Token) :
    place (format rs ts) = format rs ts :=
  placeFrom_placeFrom .start _

/-! ### Formatted tokens -/

theorem spellable_format {v : Version} {ts : List Token} (h : Spellable v ts)
    (rs : List StyleRule) : Spellable v (format rs ts) := by
  have hc : ∀ t ∈ ts, t.Consistent := fun t ht => (h.readIn t ht).consistent
  obtain ⟨s, rfl⟩ := Sheet.exists_tokens_eq ts
  have hmended : Spellable v (s.mendAll rs).tokens :=
    Sheet.mendAll_induction (P := fun s => Spellable v s.tokens) (fun _ m hs => hs.mend m) h rs
  rw [format, Sheet.foldl_fix_tokens rs hc]
  exact hmended.of_erase (map_erase_placeFrom _ _)

theorem forall_isBounded_iff {ts : List Token} (hc : ∀ t ∈ ts, t.Consistent) :
    (∀ t ∈ ts, t.IsBounded) ↔ ∀ t ∈ (significant ts).map Token.erase, t.IsBounded := by
  rw [List.forall_mem_map]
  refine ⟨fun h t ht => h t (List.mem_of_mem_filter ht), fun h t ht => ?_⟩
  cases hs : t.isTrivia with
  | true =>
    obtain ⟨text, hvalue⟩ := (hc t ht).value_of_isTrivia hs
    intro x hx
    rw [hvalue] at hx
    cases hx
  | false => exact h t (List.mem_filter.mpr ⟨ht, by simp [hs]⟩)

/-- Formatting makes no number finite and none infinite. -/
theorem forall_isBounded_format {ts : List Token} (hc : ∀ t ∈ ts, t.Consistent)
    (rs : List StyleRule) : (∀ t ∈ format rs ts, t.IsBounded) ↔ ∀ t ∈ ts, t.IsBounded := by
  rw [forall_isBounded_iff hc, forall_isBounded_iff (consistent_format hc rs),
    significant_format hc rs]

theorem Spellable.tokenize_iff {v : Version} {version : String} {ts : List Token}
    (h : Spellable v ts) (hv : Version.ofId version = .ok v) (hplaced : place ts = ts) :
    tokenize (String.ofList (spell ts)) version = .ok ts ↔ ∀ t ∈ ts, t.IsBounded := by
  have hread := h.tokensFrom_eq_ok_iff .start
  rw [← place, hplaced] at hread
  rw [← hread, tokenize_eq_ok_iff, String.toList_ofList]
  simp [hv]

/-- Formatted text is read as the formatted tokens exactly if no number of the
text was too large to read. -/
theorem tokenize_spell_format (source version : String) (c : Config) (ts : List Token)
    (h : tokenize source version = .ok ts) :
    tokenize (String.ofList (spell (format c.rules ts))) version = .ok (format c.rules ts) ↔
      ∀ t ∈ ts, t.IsBounded := by
  obtain ⟨v, hv, hts⟩ := tokenize_eq_ok_iff.mp h
  have hspellable := spellable_format (spellable_of_tokensFrom hts) c.rules
  rw [hspellable.tokenize_iff hv (place_format c.rules ts),
    forall_isBounded_format (consistent_of_tokenize h)]

/-- Three hundred and ten nines are more than any finite number, and the word that
the infinite one is written as runs into the name behind it. -/
theorem tokenize_spell_format_overflow :
    let source := String.ofList (List.replicate 310 '9' ++ ['x'])
    let c : Config := ⟨["space-around-equal"], 1⟩
    let ts := [Token.number .infinity ⟨1, 0⟩, Token.identifier "x" ⟨1, 310⟩]
    tokenize source "1.0" = .ok ts ∧ ¬(∀ t ∈ ts, t.IsBounded) ∧
      tokenize (String.ofList (spell (format c.rules ts))) "1.0" ≠ .ok (format c.rules ts) := by
  have h : tokenize (String.ofList (List.replicate 310 '9' ++ ['x'])) "1.0" =
      .ok [.number .infinity ⟨1, 0⟩, .identifier "x" ⟨1, 310⟩] := by
    rw [tokenize_eq_ok_iff, String.toList_ofList]
    exact ⟨.v10, rfl, by decide +kernel⟩
  have hb : ¬∀ t ∈ [Token.number .infinity ⟨1, 0⟩, Token.identifier "x" ⟨1, 310⟩],
      t.IsBounded := by decide +kernel
  exact ⟨h, hb, fun hread => hb ((tokenize_spell_format _ _ _ _ h).mp hread)⟩

/-! ### Formatting twice -/

/-- A rule whose fix was made leaves formatted tokens alone. -/
theorem StyleRule.fix_format {rs : List StyleRule} (hrs : rs.Pairwise KeptBy) {ts : List Token}
    (hc : ∀ t ∈ ts, t.Consistent) {r : StyleRule} (hr : r ∈ rs) :
    r.fix (format rs ts) = format rs ts := by
  by_cases hfix : r.isFixable
  · exact fix_of_remarks_eq_nil (consistent_format hc rs) hfix (remarks_format hrs hc hr hfix)
  · cases r with
    | camelCase | snakeCase | pascalCase | printlnSimpleArgument | readInputSimpleArgument => rfl
    | _ => exact absurd rfl hfix

theorem foldl_fix_of_forall {rs : List StyleRule} {ts : List Token}
    (h : ∀ r ∈ rs, r.fix ts = ts) : rs.foldl (fun ts r => r.fix ts) ts = ts := by
  induction rs with
  | nil => rfl
  | cons r rs ih =>
    obtain ⟨hr, hrs⟩ := List.forall_mem_cons.mp h
    rw [List.foldl_cons, hr, ih hrs]

theorem format_format {rs : List StyleRule} (hrs : rs.Pairwise StyleRule.KeptBy) {ts : List Token}
    (hc : ∀ t ∈ ts, t.Consistent) : format rs (format rs ts) = format rs ts := by
  rw [format, foldl_fix_of_forall fun r hr => StyleRule.fix_format hrs hc hr, place_format]

theorem formatText_eq_ok_iff {source version source' : String} {c : Config} :
    formatText source version c = .ok source' ↔
      ∃ ts, tokenize source version = .ok ts ∧
        source' = String.ofList (spell (format c.rules ts)) := by
  rw [formatText]
  cases tokenize source version with
  | error e => simp
  | ok ts => simp [eq_comm]

/-- Formatting a second time changes nothing: neither the tokens nor their
places, nor a text whose numbers are finite. -/
theorem format_idempotent (c : Config) (hb : c.blankLines ≤ Config.maxBlankLines) :
    (∀ ts : List Token, (∀ t ∈ ts, t.Consistent) →
      format c.rules (format c.rules ts) = format c.rules ts) ∧
    ∀ source version source' : String, formatText source version c = .ok source' →
      (∀ ts, tokenize source version = .ok ts → ∀ t ∈ ts, t.IsBounded) →
        formatText source' version c = .ok source' := by
  have hpair : c.rules.Pairwise StyleRule.KeptBy :=
    (StyleRule.pairwise_keptBy hb).sublist List.filter_sublist
  refine ⟨fun ts hc => format_format hpair hc, fun source version source' h hbounded => ?_⟩
  obtain ⟨ts, hts, rfl⟩ := formatText_eq_ok_iff.mp h
  have hc := consistent_of_tokenize hts
  obtain ⟨v, hv, htokens⟩ := tokenize_eq_ok_iff.mp hts
  have hspellable := spellable_format (spellable_of_tokensFrom htokens) c.rules
  have hread := (hspellable.tokenize_iff hv (place_format c.rules ts)).mpr
    ((forall_isBounded_format hc c.rules).mpr (hbounded ts hts))
  refine formatText_eq_ok_iff.mpr ⟨_, hread, ?_⟩
  rw [format_format hpair hc]

theorem format_idempotent_unkempt :
    let source := "let x:Number=1.50;println(x+-'a');"
    let source' := "let x: Number = 1.5;println(x + -\"a\");"
    let c : Config := ⟨["space-around-operator", "space-after-colon", "tabs", "space-around-equal",
      "space-after-colon"], 1⟩
    c.blankLines ≤ Config.maxBlankLines ∧ (∀ t ∈ unkempt, t.Consistent) ∧
      format c.rules (format c.rules unkempt) = format c.rules unkempt ∧
      tokenize source "1.1" = .ok unkempt ∧ (∀ t ∈ unkempt, t.IsBounded) ∧
      formatText source "1.1" c = .ok source' ∧ formatText source' "1.1" c = .ok source' := by
  have hc : ∀ t ∈ unkempt, t.Consistent := by decide
  have h : tokenize "let x:Number=1.50;println(x+-'a');" "1.1" = .ok unkempt := by decide +kernel
  have hb : ∀ t ∈ unkempt, t.IsBounded := by decide +kernel
  intro source source' c
  have hformat : formatText source "1.1" c = .ok source' := by decide +kernel
  obtain ⟨htokens, htext⟩ := format_idempotent c (by decide)
  refine ⟨by decide, hc, htokens unkempt hc, h, hb, hformat, htext _ _ _ hformat ?_⟩
  intro ts hts
  obtain rfl : unkempt = ts := Except.ok.inj (h.symm.trans hts)
  exact hb

end LetScript
