import LetScript.Proofs.Meaning

/-! Fixes move nothing but trivia. The significant tokens stay what and where
they are, and no two of them that stood apart are joined. -/
namespace LetScript

/-- Two neighbouring significant tokens of a list with trivia between them. Those
before and after them tell which two they are. -/
inductive Apart (before : List Token) (u v : Token) (after : List Token) : List Token → Prop
  | mk {front back : List Token} {run : Run} (hfront : significant front = before)
      (hu : u.isTrivia = false) (hrun : run.tokens ≠ []) (hv : v.isTrivia = false)
      (hback : significant back = after) :
      Apart before u v after (front ++ u :: (run.tokens ++ v :: back))

namespace Sheet

/-- Two cells of a sheet with a run between them are apart. -/
theorem apart {s : Sheet} {ds es : List Cell} {c d : Cell} (hs : s.cells = ds ++ c :: d :: es)
    (hrun : c.run.tokens ≠ []) :
    Apart (ds.map Cell.token) c.token d.token (es.map Cell.token) s.tokens := by
  have hfront : significant (s.lead.tokens ++ joinCells ds) = ds.map Cell.token :=
    significant_tokens ⟨s.lead, ds⟩
  have hback : significant (d.run.tokens ++ joinCells es) = es.map Cell.token :=
    significant_tokens ⟨d.run, es⟩
  have htokens : s.tokens = (s.lead.tokens ++ joinCells ds) ++
      c.token :: (c.run.tokens ++ d.token :: (d.run.tokens ++ joinCells es)) := by
    rw [tokens, hs, joinCells_append, joinCells_cons, joinCells_cons, List.append_assoc]
  rw [htokens]
  exact .mk hfront c.solid hrun d.solid hback

theorem exists_of_apart {before after ts : List Token} {u v : Token}
    (h : Apart before u v after ts) :
    ∃ (s : Sheet) (ds : List Cell) (c d : Cell) (es : List Cell), s.tokens = ts ∧
      s.cells = ds ++ c :: d :: es ∧ c.run.tokens ≠ [] ∧ ds.map Cell.token = before ∧
      c.token = u ∧ d.token = v ∧ es.map Cell.token = after := by
  obtain @⟨front, back, run, hfront, hu, hrun, hv, hback⟩ := h
  have hf := tokens_ofTokens front
  have hb := tokens_ofTokens back
  rw [tokens] at hf hb
  refine ⟨⟨(ofTokens front).lead,
      (ofTokens front).cells ++ ⟨u, hu, run⟩ :: ⟨v, hv, (ofTokens back).lead⟩ ::
        (ofTokens back).cells⟩,
    (ofTokens front).cells, ⟨u, hu, run⟩, ⟨v, hv, (ofTokens back).lead⟩, (ofTokens back).cells,
    ?_, rfl, hrun, ?_, rfl, rfl, ?_⟩
  · rw [tokens, joinCells_append, joinCells_cons, joinCells_cons, hb, ← List.append_assoc, hf]
  · rw [← significant_tokens, tokens_ofTokens, hfront]
  · rw [← significant_tokens, tokens_ofTokens, hback]

end Sheet

/-- The cells behind some others are mended on their own. -/
theorem Mend.cells_append (m : Mend) (before : List Token) (cs ds : List Cell) :
    ∃ cs', m.cells before (cs ++ ds) =
        cs' ++ m.cells ((cs.map Cell.token).reverse ++ before) ds ∧
      cs'.map Cell.token = cs.map Cell.token := by
  induction cs generalizing before with
  | nil => exact ⟨[], rfl, rfl⟩
  | cons c cs ih =>
    obtain ⟨cs', hcells, htokens⟩ := ih (c.token :: before)
    refine ⟨⟨c.token, c.solid, m.run (c.token :: before) c.run (nextToken (cs ++ ds))⟩ :: cs',
      ?_, ?_⟩
    · rw [List.cons_append, cells, hcells]
      simp
    · rw [List.map_cons, htokens, List.map_cons]

/-- What is apart in a sheet is apart in the mended sheet. -/
theorem Sheet.apart_mend {s : Sheet} (m : Mend) {ds es : List Cell} {c d : Cell}
    (hs : s.cells = ds ++ c :: d :: es) (hrun : c.run.tokens ≠ []) :
    Apart (ds.map Cell.token) c.token d.token (es.map Cell.token) (s.mend m).tokens := by
  obtain ⟨ds', hcells, htokens⟩ := m.cells_append [] ds (c :: d :: es)
  rw [← hs, Mend.cells, Mend.cells] at hcells
  have hmend := Sheet.apart (s := s.mend m) hcells (m.keeps _ _ _ hrun)
  rwa [htokens, m.map_token_cells] at hmend

section
variable {ts : List Token} (hc : ∀ t ∈ ts, t.Consistent)
include hc

theorem significant_fix (r : StyleRule) : significant (r.fix ts) = significant ts := by
  obtain ⟨s, rfl⟩ := Sheet.exists_tokens_eq ts
  rw [r.fix_tokens hc, Sheet.significant_mend]

theorem Apart.fix (r : StyleRule) {before after : List Token} {u v : Token}
    (h : Apart before u v after ts) : Apart before u v after (r.fix ts) := by
  obtain ⟨s, ds, c, d, es, rfl, hs, hrun, rfl, rfl, rfl, rfl⟩ := Sheet.exists_of_apart h
  rw [r.fix_tokens hc]
  exact Sheet.apart_mend r.mend hs hrun

/-- Formatting gives new places to the same significant tokens. -/
theorem significant_format (rs : List StyleRule) :
    (significant (format rs ts)).map Token.erase = (significant ts).map Token.erase := by
  obtain ⟨s, rfl⟩ := Sheet.exists_tokens_eq ts
  have hsame : significant (s.mendAll rs).tokens = significant s.tokens :=
    Sheet.mendAll_induction (P := fun s' => significant s'.tokens = significant s.tokens)
      (fun _ _ hs => Sheet.significant_mend.trans hs) rfl rs
  rw [format, Sheet.foldl_fix_tokens rs hc, map_erase_significant, place, map_erase_placeFrom,
    ← map_erase_significant, hsame]

end

/-- No fix loses, adds, moves or changes a significant token, and none closes
the trivia between two of them up. Formatting keeps them but for their places. -/
theorem fix_keepsSignificant (ts : List Token) (hc : ∀ t ∈ ts, t.Consistent) :
    (∀ r : StyleRule, significant (r.fix ts) = significant ts ∧
      ∀ before u v after, Apart before u v after ts → Apart before u v after (r.fix ts)) ∧
    ∀ c : Config, (significant (format c.rules ts)).map Token.erase =
      (significant ts).map Token.erase := by
  refine ⟨fun r => ⟨significant_fix hc r, ?_⟩, fun c => significant_format hc c.rules⟩
  intro before u v after h
  exact h.fix hc r

/-- An `else` on a line of its own, so that two gaps to be closed meet at it. -/
def brokenElse : List Token :=
  [.raw .closeBrace "\x7d" ⟨1, 0⟩, .lineBreak ⟨1, 1⟩, .raw .elseWord "else" ⟨2, 0⟩,
    .lineBreak ⟨2, 4⟩, .raw .openBrace "\x7b" ⟨3, 0⟩]

theorem fix_keepsSignificant_brokenElse :
    let fixed := StyleRule.ifBraceSameLine.fix brokenElse
    let closing := Token.raw .closeBrace "\x7d" ⟨1, 0⟩
    let word := Token.raw .elseWord "else" ⟨2, 0⟩
    let opening := Token.raw .openBrace "\x7b" ⟨3, 0⟩
    (∀ t ∈ brokenElse, t.Consistent) ∧
      (StyleRule.ifBraceSameLine.check brokenElse).length = 2 ∧
      significant fixed = [closing, word, opening] ∧
      Apart [closing] word opening [] brokenElse ∧ Apart [closing] word opening [] fixed := by
  have hc : ∀ t ∈ brokenElse, t.Consistent := by decide
  have hkeeps := (fix_keepsSignificant brokenElse hc).1 .ifBraceSameLine
  have hapart : Apart [.raw .closeBrace "\x7d" ⟨1, 0⟩] (.raw .elseWord "else" ⟨2, 0⟩)
      (.raw .openBrace "\x7b" ⟨3, 0⟩) [] brokenElse :=
    @Apart.mk _ _ _ _ (brokenElse.take 2) [] ⟨[.lineBreak ⟨2, 4⟩], by decide⟩ rfl rfl (by simp) rfl
      rfl
  exact ⟨hc, by decide +kernel, hkeeps.1, hapart, hkeeps.2 _ _ _ _ hapart⟩

end LetScript
