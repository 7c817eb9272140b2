import LetScript.Proofs.Braces

/-! Filling all gaps at once. The gaps that the rules of layout find are filled one after another,
on a list that changes meanwhile. Main statement: the outcome is that of putting into every gap at
once what is made for it from the list as it was. -/
namespace LetScript

/-- What a token at an index becomes. It stays unless it lies in a gap, and behind the first side
of a gap comes what is made for it from the whole list. -/
def fillOne (new : Gap → List Token → List Token) (gaps : List Gap) (ts : List Token) :
    Token × Nat → List Token
  | (t, i) =>
    (if gaps.any fun g => g.start < i && i < g.stop then [] else [t]) ++
      (match gaps.find? fun g => g.start = i with
        | some g => new g ts
        | none => [])

/-- Fill gaps at once. -/
def fillAtOnce (new : Gap → List Token → List Token) (gaps : List Gap) (ts : List Token) :
    List Token :=
  ts.zipIdx.flatMap (fillOne new gaps ts)

/-- Gaps do not get in each other's way: they begin at different tokens, only trivia lies in them,
and no two of them have a token in common. -/
structure Separate (gaps : List Gap) (ts : List Token) : Prop where
  starts : (gaps.map Gap.start).Nodup
  within : ∀ g ∈ gaps, g.start < g.stop ∧ g.stop < ts.length
  blank : ∀ g ∈ gaps, ∀ i, g.start < i → i < g.stop → ∃ t, ts[i]? = some t ∧ t.isTrivia
  disjoint : gaps.Pairwise fun g h => ∀ i, g.start < i → i < g.stop → ¬ (h.start < i ∧ i < h.stop)

/-! ### Gaps between neighbours -/

/-- The token at an index is not trivia. -/
def Solid (ts : List Token) (i : Nat) : Prop := ∃ t, ts[i]? = some t ∧ t.isTrivia = false

theorem Solid.lt_length {ts : List Token} {i : Nat} (h : Solid ts i) : i < ts.length := by
  obtain ⟨t, ht, -⟩ := h
  exact (List.getElem?_eq_some_iff.mp ht).1

/-- The two sides of a gap are neighbours among the tokens that are not trivia. -/
structure Gap.Proper (g : Gap) (ts : List Token) : Prop where
  start : Solid ts g.start
  stop : Solid ts g.stop
  lt : g.start < g.stop
  between : ∀ i, g.start < i → i < g.stop → ¬ Solid ts i

namespace Gap.Proper

variable {g h : Gap} {ts : List Token}

theorem eq_of_start (hg : g.Proper ts) (hh : h.Proper ts) (heq : g.start = h.start) : g = h := by
  have hgl := hg.lt
  have hhl := hh.lt
  have hle : g.stop ≤ h.stop := by
    by_contra hlt
    exact hg.between h.stop (by omega) (by omega) hh.stop
  have hge : h.stop ≤ g.stop := by
    by_contra hlt
    exact hh.between g.stop (by omega) (by omega) hg.stop
  obtain ⟨a, b⟩ := g
  obtain ⟨c, d⟩ := h
  simp only [Gap.mk.injEq] at *
  omega

/-- Where two gaps have a token in common they begin at the same one. -/
theorem start_eq (hg : g.Proper ts) (hh : h.Proper ts) {i : Nat} (hgi : g.start < i)
    (hig : i < g.stop) (hhi : h.start < i) (hih : i < h.stop) : g.start = h.start := by
  by_contra hne
  rcases Nat.lt_or_gt_of_ne hne with hlt | hlt
  · exact hg.between h.start hlt (by omega) hh.start
  · exact hh.between g.start hlt (by omega) hg.start

end Gap.Proper

theorem separate_of_proper {gaps : List Gap} {ts : List Token} (hnodup : gaps.Nodup)
    (h : ∀ g ∈ gaps, g.Proper ts) : Separate gaps ts where
  starts := by
    rw [List.Nodup, List.pairwise_map]
    refine List.Pairwise.imp_of_mem (fun {g g'} hg hg' hne heq => hne ?_) hnodup
    exact (h g hg).eq_of_start (h g' hg') heq
  within g hg := ⟨(h g hg).lt, (h g hg).stop.lt_length⟩
  blank g hg i hgi hig := by
    have hlt : i < ts.length := Nat.lt_trans hig (h g hg).stop.lt_length
    refine ⟨ts[i], List.getElem?_eq_getElem hlt, ?_⟩
    by_contra htrivia
    exact (h g hg).between i hgi hig ⟨ts[i], List.getElem?_eq_getElem hlt, by simpa using htrivia⟩
  disjoint := by
    refine List.Pairwise.imp_of_mem (fun {g g'} hg hg' hne i hgi hig hin => hne ?_) hnodup
    exact (h g hg).eq_of_start (h g' hg') ((h g hg).start_eq (h g' hg') hgi hig hin.1 hin.2)

section
variable {front run back : List Token} {u v : Token}

@[simp] theorem getElem?_behind (front back : List Token) (u : Token) (k : Nat) :
    (front ++ u :: back)[front.length + 1 + k]? = back[k]? := by
  have hindex : front.length + 1 + k - front.length = k + 1 := by omega
  rw [List.getElem?_append_right (by omega), hindex, List.getElem?_cons_succ]

theorem not_solid_run (hrun : ∀ t ∈ run, t.isTrivia) {i : Nat} (hi : front.length < i)
    (hlt : i < front.length + 1 + run.length) : ¬ Solid (front ++ u :: (run ++ back)) i := by
  rintro ⟨t, ht, hsolid⟩
  obtain ⟨k, rfl⟩ : ∃ k, i = front.length + 1 + k := ⟨i - (front.length + 1), by omega⟩
  rw [getElem?_behind, List.getElem?_append_left (by omega)] at ht
  rw [hrun t (List.mem_of_getElem? ht)] at hsolid
  cases hsolid

theorem proper_append (hu : u.isTrivia = false) (hrun : ∀ t ∈ run, t.isTrivia)
    (hv : v.isTrivia = false) :
    Gap.Proper ⟨front.length, front.length + 1 + run.length⟩
      (front ++ u :: (run ++ v :: back)) where
  start := ⟨u, by simp, hu⟩
  stop := ⟨v, getElem?_append_run front run back u v, hv⟩
  lt := by simp only; omega
  between i hi hlt := not_solid_run hrun hi hlt

end

theorem proper_of_mem_gapsFrom {front : List Token} {cs : List Cell} {g : Gap}
    (h : g ∈ gapsFrom front.length cs) : g.Proper (front ++ joinCells cs) := by
  match cs with
  | [] => cases h
  | [c] => cases h
  | c :: d :: cs =>
    rw [gapsFrom, List.mem_cons, ← length_append_cell] at h
    rcases h with rfl | h
    · rw [length_append_cell, joinCells_cons, joinCells_cons]
      exact proper_append c.solid c.run.blank d.solid
    · have := proper_of_mem_gapsFrom h
      rwa [List.append_assoc, List.cons_append, ← joinCells_cons] at this
termination_by cs.length

/-! ### Filling at once, cell by cell -/

section
variable {fill : Gap → List Token → List Token} {chosen : List Gap} {ts : List Token}

theorem any_inside_iff {i : Nat} : (chosen.any fun g => g.start < i && i < g.stop) ↔
    ∃ g ∈ chosen, g.start < i ∧ i < g.stop := by
  simp

/-- A token that is not trivia stays. -/
theorem fillOne_solid (hchosen : ∀ g ∈ chosen, g.Proper ts) {t : Token} {i : Nat}
    (hi : Solid ts i) :
    fillOne fill chosen ts (t, i) =
      t :: (match chosen.find? fun g => g.start = i with
        | some g => fill g ts
        | none => []) := by
  have hout : ¬ ∃ g ∈ chosen, g.start < i ∧ i < g.stop := by
    rintro ⟨g, hg, hlt, hgt⟩
    exact (hchosen g hg).between i hlt hgt hi
  rw [fillOne, if_neg (mt any_inside_iff.mp hout)]
  rfl

/-- Trivia goes where it lies in a gap. -/
theorem fillOne_trivia (hchosen : ∀ g ∈ chosen, g.Proper ts) {t : Token} {i : Nat}
    (hi : ¬ Solid ts i) :
    ((∃ g ∈ chosen, g.start < i ∧ i < g.stop) → fillOne fill chosen ts (t, i) = []) ∧
      ((¬ ∃ g ∈ chosen, g.start < i ∧ i < g.stop) → fillOne fill chosen ts (t, i) = [t]) := by
  have hnone : (chosen.find? fun g => g.start = i) = none := by
    rw [List.find?_eq_none]
    intro g hg hstart
    exact hi (of_decide_eq_true hstart ▸ (hchosen g hg).start)
  rw [fillOne, hnone, List.append_nil]
  exact ⟨fun hin => if_pos (any_inside_iff.mpr hin), fun hout => if_neg (mt any_inside_iff.mp hout)⟩

/-- Where the indices make no difference they can be left out. -/
theorem flatMap_zipIdx {f : Token × Nat → List Token} {g : Token → List Token} {us : List Token}
    {n : Nat} (h : ∀ t i, n ≤ i → i < n + us.length → f (t, i) = g t) :
    (us.zipIdx n).flatMap f = us.flatMap g := by
  induction us generalizing n with
  | nil => rfl
  | cons u us ih =>
    simp only [List.length_cons] at h
    rw [List.zipIdx_cons, List.flatMap_cons, List.flatMap_cons, h u n (Nat.le_refl n) (by omega),
      ih fun t i hi hlt => h t i (by omega) (by omega)]

/-- A token and the trivia behind it. A gap that begins at the token takes up all of the trivia, and
any other gap none of it. -/
theorem flatMap_cell (hchosen : ∀ g ∈ chosen, g.Proper ts) {front run back : List Token} {u : Token}
    (hu : u.isTrivia = false) (hrun : ∀ t ∈ run, t.isTrivia)
    (hts : ts = front ++ u :: (run ++ back)) :
    ((u :: run).zipIdx front.length).flatMap (fillOne fill chosen ts) =
      u :: (match chosen.find? fun g => g.start = front.length with
        | some g => fill g ts
        | none => run) := by
  have hsolid : Solid ts front.length := ⟨u, by simp [hts], hu⟩
  have hblank {i : Nat} (hi : front.length + 1 ≤ i) (hlt : i < front.length + 1 + run.length) :
      ¬ Solid ts i := by
    rw [hts]
    exact not_solid_run hrun hi hlt
  rw [List.zipIdx_cons, List.flatMap_cons, fillOne_solid hchosen hsolid, List.cons_append]
  congr 1
  -- a gap that begins here can not stop before the end of the run, and one that begins elsewhere
  -- can not reach into it
  cases hfind : chosen.find? fun g => g.start = front.length with
  | some g =>
    have hmem := List.mem_of_find?_eq_some hfind
    have hstart : g.start = front.length := by simpa using List.find?_some hfind
    have hg := hchosen g hmem
    have hstop : front.length + 1 + run.length ≤ g.stop := by
      have hlt := hg.lt
      by_contra hle
      exact hblank (by omega) (by omega) hg.stop
    have hgone : (run.zipIdx (front.length + 1)).flatMap (fillOne fill chosen ts) =
        run.flatMap fun _ => [] :=
      flatMap_zipIdx fun t i hi hlt =>
        (fillOne_trivia hchosen (hblank hi hlt)).1 ⟨g, hmem, by omega, by omega⟩
    rw [hgone, List.flatMap_eq_nil_iff.mpr fun _ _ => rfl]
    exact List.append_nil _
  | none =>
    rw [List.find?_eq_none] at hfind
    have hkept : (run.zipIdx (front.length + 1)).flatMap (fillOne fill chosen ts) =
        run.flatMap fun t => [t] := by
      refine flatMap_zipIdx fun t i hi hlt => (fillOne_trivia hchosen (hblank hi hlt)).2 ?_
      rintro ⟨g, hmem, hgi, hig⟩
      have hg := hchosen g hmem
      have hne : g.start ≠ front.length := by simpa using hfind g hmem
      rcases Nat.lt_or_gt_of_ne hne with hbefore | hbehind
      · exact hg.between front.length hbefore (by omega) hsolid
      · exact hblank hbehind (by omega) hg.start
    rw [hkept, List.flatMap_singleton']
    rfl

/-- Filling cell by cell is filling at once. -/
theorem flatMap_joinCells {new : Token → List Token → List Token} (hnew : FillsBy fill new)
    (hchosen : ∀ g ∈ chosen, g.Proper ts) {front : List Token} {cs : List Cell}
    (hts : ts = front ++ joinCells cs) :
    ((joinCells cs).zipIdx front.length).flatMap (fillOne fill chosen ts) =
      filledFrom chosen new front.length cs := by
  match cs with
  | [] => rfl
  | [c] =>
    have hsingle : joinCells [c] = c.token :: c.run.tokens := by simp
    have hts' : ts = front ++ c.token :: (c.run.tokens ++ []) := by rw [hts, joinCells_cons]; rfl
    have hnone : (chosen.find? fun g => g.start = front.length) = none := by
      rw [List.find?_eq_none]
      intro g hg hstart
      have hstop := (hchosen g hg).stop
      have hlt := (hchosen g hg).lt
      have hlen := hstop.lt_length
      rw [of_decide_eq_true hstart] at hlt
      rw [hts'] at hstop hlen
      simp only [List.append_nil, List.length_append, List.length_cons] at hlen
      exact not_solid_run c.run.blank hlt (by omega) hstop
    rw [hsingle, flatMap_cell hchosen c.solid c.run.blank hts', hnone]
    rfl
  | c :: d :: cs =>
    have hts' : ts = (front ++ c.token :: c.run.tokens) ++ joinCells (d :: cs) := by
      rw [hts, joinCells_cons c, List.append_assoc, List.cons_append]
    have hcell : ts = front ++ c.token :: (c.run.tokens ++ joinCells (d :: cs)) := by
      rw [hts, joinCells_cons c]
    have hgap : Gap.Proper ⟨front.length, front.length + 1 + c.run.tokens.length⟩ ts := by
      rw [hcell, joinCells_cons d]
      exact proper_append c.solid c.run.blank d.solid
    have ih := flatMap_joinCells hnew hchosen hts'
    rw [length_append_cell] at ih
    rw [joinCells_cons c, ← List.cons_append, List.zipIdx_append, List.flatMap_append,
      flatMap_cell hchosen c.solid c.run.blank hcell, List.length_cons, Nat.add_comm _ 1,
      ← Nat.add_assoc, ih, filledFrom, List.cons_append]
    congr 2
    cases hfind : chosen.find? fun g => g.start = front.length with
    | some g =>
      have hmem := List.mem_of_find?_eq_some hfind
      have hstart : g.start = front.length := by simpa using List.find?_some hfind
      obtain rfl := (hchosen g hmem).eq_of_start hgap hstart
      rw [if_pos hmem]
      simp only
      rw [hcell, hnew]
    | none =>
      rw [List.find?_eq_none] at hfind
      rw [if_neg fun hmem => hfind _ hmem (by simp)]
termination_by cs.length

end

/-- Gaps of a sheet, filled in turn. -/
theorem Sheet.fillGaps_eq_fillAtOnce {s : Sheet} {chosen : List Gap}
    {fill : Gap → List Token → List Token} {new : Token → List Token → List Token}
    (hnew : FillsBy fill new) (hnodup : chosen.Nodup) (hsub : ∀ g ∈ chosen, g ∈ s.gaps) :
    fillGaps fill chosen s.tokens = fillAtOnce fill chosen s.tokens := by
  have hs : s.tokens = s.lead.tokens ++ joinCells s.cells := rfl
  have hchosen : ∀ g ∈ chosen, g.Proper s.tokens := fun g hg => proper_of_mem_gapsFrom (hsub g hg)
  have hlead : (s.lead.tokens.zipIdx 0).flatMap (fillOne fill chosen s.tokens) =
      s.lead.tokens.flatMap fun t => [t] := by
    refine flatMap_zipIdx fun t i _ hlt => ?_
    rw [Nat.zero_add] at hlt
    have hblank : ¬ Solid s.tokens i := by
      rintro ⟨u, hu, hsolid⟩
      rw [hs, List.getElem?_append_left hlt] at hu
      rw [s.lead.blank u (List.mem_of_getElem? hu)] at hsolid
      cases hsolid
    refine (fillOne_trivia hchosen hblank).2 ?_
    rintro ⟨g, hg, hgi, -⟩
    have hle := start_of_mem_gapsFrom (hsub g hg)
    omega
  rw [List.flatMap_singleton'] at hlead
  have hcells := flatMap_joinCells hnew hchosen hs
  rw [fillGaps_eq hnew hnodup hsub, fillAtOnce, ← hcells]
  nth_rewrite 3 [hs]
  rw [List.zipIdx_append, List.flatMap_append, hlead, Nat.zero_add]

/-- In whichever order gaps are listed they are separate, and filling them in turn is filling them
at once. -/
def FillsAtOnce (new : Gap → List Token → List Token) (found : List Gap) (ts : List Token) : Prop :=
  ∀ gaps : List Gap, gaps.Perm found →
    Separate gaps ts ∧ fillGaps new gaps ts = fillAtOnce new found ts

theorem Sheet.Chosen.fillsAtOnce {s : Sheet} {faulty : List Token → List Token → Token → Bool}
    {found : List Gap} {fill : Gap → List Token → List Token}
    {new : Token → List Token → List Token} (h : s.Chosen faulty found) (hnew : FillsBy fill new) :
    FillsAtOnce fill found s.tokens := by
  intro gaps hperm
  have hnodup : gaps.Nodup := hperm.nodup_iff.mpr h.nodup
  have hsub : ∀ g ∈ gaps, g ∈ s.gaps := fun g hg => h.sub g (hperm.mem_iff.mp hg)
  have hsame : fillGaps fill gaps s.tokens = fillGaps fill found s.tokens := by
    rw [fillGaps, fillGaps, Sheet.mergeSort_gaps hnodup hsub, Sheet.mergeSort_gaps h.nodup h.sub]
    simp only [hperm.mem_iff]
  refine ⟨separate_of_proper hnodup fun g hg => proper_of_mem_gapsFrom (hsub g hg), ?_⟩
  rw [hsame, Sheet.fillGaps_eq_fillAtOnce hnew h.nodup h.sub]

namespace Layout

/-- The three rules that fill gaps fill them at once. -/
theorem gaps_filledAtOnce (blankLines : Nat) (ts : List Token) (hc : ∀ t ∈ ts, t.Consistent) :
    (FillsAtOnce (fun g ts => [.lineBreak (placeAt ts g.start)]) (statementGaps ts) ts ∧
      FillsAtOnce (printlnTrivia blankLines) (printlnGaps blankLines ts) ts ∧
      FillsAtOnce (fun g ts => [.space (placeAt ts g.start)]) (braceGaps ts) ts) ∧
    fixStatements ts =
      fillAtOnce (fun g ts => [.lineBreak (placeAt ts g.start)]) (statementGaps ts) ts ∧
    fixPrintln blankLines ts =
      fillAtOnce (printlnTrivia blankLines) (printlnGaps blankLines ts) ts ∧
    fixBraces ts = fillAtOnce (fun g ts => [.space (placeAt ts g.start)]) (braceGaps ts) ts := by
  obtain ⟨s, rfl⟩ := Sheet.exists_tokens_eq ts
  have hstatements := (statementGaps_chosen s).fillsAtOnce (fillsBy_placeAt .lineBreak)
  have hprintln : FillsAtOnce _ (printlnGaps blankLines s.tokens) s.tokens :=
    (printlnGaps_chosen hc).fillsAtOnce (fillsBy_printlnTrivia blankLines)
  have hbraces := (braceGaps_chosen s).fillsAtOnce (fillsBy_placeAt .space)
  exact ⟨⟨hstatements, hprintln, hbraces⟩, (hstatements _ (.refl _)).2, (hprintln _ (.refl _)).2,
    (hbraces _ (.refl _)).2⟩

/-- An `if` in the condition of another, so that the gap behind the outer condition is found first
and comes last. -/
theorem gaps_filledAtOnce_nestedIfs :
    let ts : List Token := [.raw .ifWord "if" ⟨1, 0⟩, .raw .openParen "(" ⟨1, 2⟩,
      .raw .ifWord "if" ⟨1, 3⟩, .raw .openParen "(" ⟨1, 5⟩, .raw .closeParen ")" ⟨1, 6⟩,
      .lineBreak ⟨1, 7⟩, .raw .openBrace "\x7b" ⟨2, 0⟩, .raw .closeParen ")" ⟨2, 1⟩,
      .lineBreak ⟨2, 2⟩, .lineBreak ⟨3, 0⟩, .raw .openBrace "\x7b" ⟨4, 0⟩]
    (∀ t ∈ ts, t.Consistent) ∧ braceGaps ts = [⟨7, 10⟩, ⟨4, 6⟩] ∧
      Separate [⟨4, 6⟩, ⟨7, 10⟩] ts ∧
      fixBraces ts = [.raw .ifWord "if" ⟨1, 0⟩, .raw .openParen "(" ⟨1, 2⟩,
        .raw .ifWord "if" ⟨1, 3⟩, .raw .openParen "(" ⟨1, 5⟩, .raw .closeParen ")" ⟨1, 6⟩,
        .space ⟨1, 6⟩, .raw .openBrace "\x7b" ⟨2, 0⟩, .raw .closeParen ")" ⟨2, 1⟩,
        .space ⟨2, 1⟩, .raw .openBrace "\x7b" ⟨4, 0⟩] := by
  intro ts
  have hc : ∀ t ∈ ts, t.Consistent := by decide
  have hgaps : braceGaps ts = [⟨7, 10⟩, ⟨4, 6⟩] := by decide
  obtain ⟨⟨-, -, hbraces⟩, -, -, hfix⟩ := gaps_filledAtOnce 1 ts hc
  rw [hgaps] at hbraces hfix
  exact ⟨hc, hgaps, (hbraces _ (.swap ..)).1, hfix⟩

end Layout
end LetScript
