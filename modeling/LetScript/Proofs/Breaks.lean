import Mathlib.Data.List.TakeWhile
import LetScript.Proofs.Bracket
import LetScript.Proofs.Filling
import LetScript.Proofs.Spacing
import LetScript.Style.Layout

/-! Line breaks between statements and before printing, gap by gap. The gaps
that a rule of layout finds by their indices are the faulty gaps of the sheet. -/
namespace LetScript

/-! ### Neighbours by index -/

theorem findIdx?_solid {run back : List Token} {v : Token} (hrun : ∀ t ∈ run, t.isTrivia)
    (hv : v.isTrivia = false) :
    (run ++ v :: back).findIdx? (fun t => !t.isTrivia) = some run.length := by
  rw [List.findIdx?_append, List.findIdx?_eq_none_iff.mpr (by simpa using hrun),
    List.findIdx?_cons]
  simp [hv]

theorem findIdx?_solid_eq_some {ts : List Token} {k : Nat}
    (h : ts.findIdx? (fun t => !t.isTrivia) = some k) :
    ∃ run v back, ts = run ++ v :: back ∧ (∀ t ∈ run, t.isTrivia) ∧ v.isTrivia = false ∧
      k = run.length := by
  induction ts generalizing k with
  | nil => simp at h
  | cons t ts ih =>
    rw [List.findIdx?_cons] at h
    split at h
    · rename_i ht
      exact ⟨[], t, ts, rfl, by simp, by simpa using ht, (Option.some.inj h).symm⟩
    · rename_i ht
      obtain ⟨k, hk, rfl⟩ := Option.map_eq_some_iff.mp h
      obtain ⟨run, v, back, rfl, hrun, hv, rfl⟩ := ih hk
      exact ⟨t :: run, v, back, rfl, by simpa using ⟨by simpa using ht, hrun⟩, hv, rfl⟩

theorem exists_of_getElem? {ts : List Token} {i : Nat} {t : Token} (h : ts[i]? = some t) :
    ∃ front back, ts = front ++ t :: back ∧ i = front.length := by
  obtain ⟨hi, rfl⟩ := List.getElem?_eq_some_iff.mp h
  refine ⟨ts.take i, ts.drop (i + 1), ?_, ?_⟩
  · simp
  · rw [List.length_take]
    omega

section
variable {front run back : List Token} {u v : Token}

@[simp] theorem drop_length_succ : (front ++ u :: back).drop (front.length + 1) = back := by
  simp [← List.drop_drop]

@[simp] theorem nextSignificant?_append (hrun : ∀ t ∈ run, t.isTrivia) (hv : v.isTrivia = false) :
    nextSignificant? (front ++ u :: (run ++ v :: back)) front.length =
      some (front.length + 1 + run.length) := by
  rw [nextSignificant?, drop_length_succ, findIdx?_solid hrun hv]
  rfl

@[simp] theorem prevSignificant?_append (hu : u.isTrivia = false) (hrun : ∀ t ∈ run, t.isTrivia) :
    prevSignificant? (front ++ u :: (run ++ v :: back)) (front.length + 1 + run.length) =
      some front.length := by
  have htake : (front ++ u :: (run ++ v :: back)).take (front.length + 1 + run.length) =
      front ++ u :: run := by
    have hlen : front.length + 1 + run.length = (front ++ u :: run).length := by
      simp only [List.length_append, List.length_cons]
      omega
    rw [hlen, ← List.cons_append, ← List.append_assoc, List.take_left]
  have hrev : (front ++ u :: run).reverse = run.reverse ++ u :: front.reverse := by simp
  rw [prevSignificant?, htake, hrev, findIdx?_solid (by simpa using hrun) hu]
  simp only [Option.map_some, List.length_reverse, Option.some.injEq]
  omega

end

theorem nextSignificant?_eq_some {ts : List Token} {i j : Nat}
    (h : nextSignificant? ts i = some j) {u : Token} (hu : ts[i]? = some u) :
    ∃ front run v back, ts = front ++ u :: (run ++ v :: back) ∧ (∀ t ∈ run, t.isTrivia) ∧
      v.isTrivia = false ∧ i = front.length ∧ j = front.length + 1 + run.length := by
  obtain ⟨front, back, rfl, rfl⟩ := exists_of_getElem? hu
  rw [nextSignificant?, drop_length_succ] at h
  obtain ⟨k, hk, rfl⟩ := Option.map_eq_some_iff.mp h
  obtain ⟨run, v, back, rfl, hrun, hv, rfl⟩ := findIdx?_solid_eq_some hk
  exact ⟨front, run, v, back, rfl, hrun, hv, rfl, rfl⟩

theorem prevSignificant?_eq_some {ts : List Token} {i j : Nat}
    (h : prevSignificant? ts i = some j) {v : Token} (hv : ts[i]? = some v) :
    ∃ front u run back, ts = front ++ u :: (run ++ v :: back) ∧ (∀ t ∈ run, t.isTrivia) ∧
      u.isTrivia = false ∧ j = front.length ∧ i = front.length + 1 + run.length := by
  obtain ⟨before, back, rfl, rfl⟩ := exists_of_getElem? hv
  rw [prevSignificant?, List.take_left] at h
  obtain ⟨k, hk, rfl⟩ := Option.map_eq_some_iff.mp h
  obtain ⟨run, u, front, hbefore, hrun, hu, rfl⟩ := findIdx?_solid_eq_some hk
  obtain rfl : before = front.reverse ++ u :: run.reverse := by
    simpa using congrArg List.reverse hbefore
  refine ⟨front.reverse, u, run.reverse, back, by simp, by simpa using hrun, hu, ?_, ?_⟩
  all_goals simp only [List.length_append, List.length_reverse, List.length_cons]
  all_goals omega

/-! ### Gaps of a sheet by index -/

theorem gapsFrom_mem (n : Nat) (cs : List Cell) (c d : Cell) (ds : List Cell) :
    ⟨n + (joinCells cs).length, n + (joinCells cs).length + 1 + c.run.tokens.length⟩ ∈
      gapsFrom n (cs ++ c :: d :: ds) := by
  induction cs generalizing n with
  | nil => simp [gapsFrom]
  | cons b cs ih =>
    have ih := ih (n + 1 + b.run.tokens.length)
    have hlen : n + (joinCells (b :: cs)).length =
        n + 1 + b.run.tokens.length + (joinCells cs).length := by
      simp only [joinCells_cons, List.length_cons, List.length_append]
      omega
    rw [hlen]
    cases cs <;> exact List.mem_cons_of_mem _ ih

theorem getElem?_run_append {r : Run} {ts : List Token} {i : Nat} {t : Token}
    (h : (r.tokens ++ ts)[i]? = some t) (ht : t.isTrivia = false) :
    r.tokens.length ≤ i ∧ ts[i - r.tokens.length]? = some t := by
  by_cases hi : r.tokens.length ≤ i
  · rw [List.getElem?_append_right hi] at h
    exact ⟨hi, h⟩
  · rw [List.getElem?_append_left (by omega)] at h
    simp [r.blank t (List.mem_of_getElem? h)] at ht

/-- A token in a list of cells that is not trivia opens a cell. -/
theorem exists_cell {cs : List Cell} {i : Nat} {t : Token} (h : (joinCells cs)[i]? = some t)
    (ht : t.isTrivia = false) :
    ∃ ds c es, cs = ds ++ c :: es ∧ c.token = t ∧ i = (joinCells ds).length := by
  induction cs generalizing i with
  | nil => simp at h
  | cons c cs ih =>
    rw [joinCells_cons] at h
    cases i with
    | zero => exact ⟨[], c, cs, rfl, by simpa using h, rfl⟩
    | succ k =>
      rw [List.getElem?_cons_succ] at h
      obtain ⟨hk, h⟩ := getElem?_run_append h ht
      obtain ⟨ds, d, es, rfl, rfl, hi⟩ := ih h
      refine ⟨c :: ds, d, es, rfl, rfl, ?_⟩
      simp only [joinCells_cons, List.length_cons, List.length_append]
      omega

theorem Sheet.mem_gaps {s : Sheet} {i j : Nat} {u : Token} (hu : s.tokens[i]? = some u)
    (hs : u.isTrivia = false) (hj : nextSignificant? s.tokens i = some j) : ⟨i, j⟩ ∈ s.gaps := by
  rw [tokens] at hu
  obtain ⟨hi, hu⟩ := getElem?_run_append hu hs
  obtain ⟨ds, c, es, hcells, rfl, hk⟩ := exists_cell hu hs
  have hlen : (s.lead.tokens ++ joinCells ds).length = i := by
    rw [List.length_append]
    omega
  have htokens : s.tokens =
      (s.lead.tokens ++ joinCells ds) ++ c.token :: (c.run.tokens ++ joinCells es) := by
    rw [tokens, hcells, joinCells_append, joinCells_cons, List.append_assoc]
  cases es with
  | nil =>
    have hnone : c.run.tokens.findIdx? (fun t => !t.isTrivia) = none :=
      List.findIdx?_eq_none_iff.mpr (by simpa using c.run.blank)
    rw [htokens, ← hlen, nextSignificant?, drop_length_succ, joinCells_nil, List.append_nil,
      hnone] at hj
    cases hj
  | cons d es =>
    rw [htokens, ← hlen, joinCells_cons, nextSignificant?_append c.run.blank d.solid, hlen] at hj
    obtain rfl := Option.some.inj hj
    have := gapsFrom_mem s.lead.tokens.length ds c d es
    rw [← List.length_append, hlen, ← hcells] at this
    exact this

/-- What earlier and later indices yield is listed in that order. -/
theorem pairwise_filterMap_zipIdx {α : Type} {R : α → α → Prop} {f : Token × Nat → Option α}
    {ts : List Token} (h : ∀ t i u j a b, ts[i]? = some t → ts[j]? = some u → i < j →
      f (t, i) = some a → f (u, j) = some b → R a b) : (ts.zipIdx.filterMap f).Pairwise R := by
  have hpair : ts.zipIdx.Pairwise fun a b => a.2 < b.2 := by
    rw [← List.pairwise_map, List.zipIdx_map_snd]
    exact List.pairwise_lt_range' 1
  rw [List.pairwise_filterMap]
  refine hpair.imp_of_mem fun {p q} hp hq hlt a ha b hb => ?_
  exact h p.1 p.2 q.1 q.2 a b (List.mem_zipIdx_iff_getElem?.mp hp)
    (List.mem_zipIdx_iff_getElem?.mp hq) hlt ha hb

/-- A rule names each gap once if it names it at one index only. -/
theorem nodup_filterMap_zipIdx {f : Token × Nat → Option Gap} {ts : List Token}
    (h : ∀ t i u j g, ts[i]? = some t → ts[j]? = some u → f (t, i) = some g →
      f (u, j) = some g → i = j) : (ts.zipIdx.filterMap f).Nodup := by
  refine pairwise_filterMap_zipIdx fun t i u j g g' hi hj hlt hg hg' heq => ?_
  subst heq
  have := h t i u j g hi hj hg hg'
  omega

@[simp] theorem inside_between (front run back : List Token) (t : Token) :
    Gap.inside ⟨front.length, front.length + 1 + run.length⟩ (front ++ t :: (run ++ back)) =
      run := by
  have hlen : front.length + 1 + run.length = (front ++ t :: run).length := by
    simp only [List.length_append, List.length_cons]
    omega
  rw [Gap.inside, hlen, ← List.cons_append, ← List.append_assoc, List.take_left, drop_length_succ]

@[simp] theorem breaks_between (front run back : List Token) (t : Token) :
    Gap.breaks ⟨front.length, front.length + 1 + run.length⟩ (front ++ t :: (run ++ back)) =
      Blank.breaks run := by
  rw [Gap.breaks, inside_between, Blank.breaks]

@[simp] theorem placeAt_append (front : List Token) (c : Cell) (back : List Token) :
    placeAt (front ++ c.token :: back) front.length = c.token.position := by
  simp [placeAt]

theorem fillsBy_placeAt (new : Position → Token) :
    FillsBy (fun g ts => [new (placeAt ts g.start)]) (fun u _ => [new u.position]) := by
  intro front c back
  simp only [placeAt_append]

@[simp] theorem getElem?_append_run (front run back : List Token) (u v : Token) :
    (front ++ u :: (run ++ v :: back))[front.length + 1 + run.length]? = some v := by
  rw [List.getElem?_append_right (by omega), Nat.add_assoc, Nat.add_sub_cancel_left, Nat.add_comm,
    List.getElem?_cons_succ, List.getElem?_append_right (Nat.le_refl _), Nat.sub_self]
  rfl

namespace Layout

@[simp] theorem requiredAt_append (blankLines : Nat) (front : List Token) (u : Token)
    (back : List Token) :
    requiredAt blankLines (front ++ u :: back) front.length = requiredBreaks blankLines u.kind := by
  simp [requiredAt]

/-! ### Statements -/

/-- A semicolon without a line break behind it. -/
def statementFault (before run : List Token) (_ : Token) : Bool :=
  before.head?.any (fun u => u.kind = .semicolon) && Blank.breaks run = 0

theorem statementFault_iff {u v : Token} {us run : List Token} :
    statementFault (u :: us) run v ↔ u.kind = .semicolon ∧ Blank.breaks run = 0 := by
  simp [statementFault]

theorem statementGap_eq_some {ts : List Token} {t : Token} {i : Nat} {g : Gap} :
    (if t.kind = .semicolon then
      (nextSignificant? ts i).bind fun next =>
        if Gap.breaks ⟨i, next⟩ ts = 0 then some (⟨i, next⟩ : Gap) else none
      else none) = some g ↔
      g.start = i ∧ t.kind = .semicolon ∧ nextSignificant? ts i = some g.stop ∧
        g.breaks ts = 0 := by
  simp only [Option.ite_none_right_eq_some, Option.bind_eq_some_iff, Option.some.injEq]
  constructor
  · rintro ⟨hk, next, hnext, hb, rfl⟩
    exact ⟨rfl, hk, hnext, hb⟩
  · rintro ⟨rfl, hk, hnext, hb⟩
    exact ⟨hk, g.stop, hnext, hb, rfl⟩

theorem mem_statementGaps {ts : List Token} {g : Gap} :
    g ∈ statementGaps ts ↔ ∃ t, ts[g.start]? = some t ∧ t.kind = .semicolon ∧
      nextSignificant? ts g.start = some g.stop ∧ g.breaks ts = 0 := by
  rw [statementGaps, List.mem_filterMap]
  constructor
  · rintro ⟨⟨t, i⟩, hmem, h⟩
    obtain ⟨rfl, h⟩ := statementGap_eq_some.mp h
    exact ⟨t, List.mk_mem_zipIdx_iff_getElem?.mp hmem, h⟩
  · rintro ⟨t, ht, h⟩
    exact ⟨(t, g.start), List.mk_mem_zipIdx_iff_getElem?.mpr ht,
      statementGap_eq_some.mpr ⟨rfl, h⟩⟩

theorem statementGaps_chosen (s : Sheet) : s.Chosen statementFault (statementGaps s.tokens) where
  nodup := nodup_filterMap_zipIdx fun t i u j g _ _ hi hj =>
    (statementGap_eq_some.mp hi).1.symm.trans (statementGap_eq_some.mp hj).1
  sub g hg := by
    obtain ⟨t, ht, hk, hnext, -⟩ := mem_statementGaps.mp hg
    exact s.mem_gaps ht (by simp [Token.isTrivia, hk, Kind.isTrivia]) hnext
  mem_iff front c d cs hs := by
    rw [mem_statementGaps, hs, joinCells_cons c, breaks_between, joinCells_cons d,
      nextSignificant?_append c.run.blank d.solid]
    simp [statementFault]

def statementsMend : Mend :=
  .between statementFault (fun u _ => [.lineBreak u.position])
    (fun u run t ht => .inr ⟨u.position, .inr (by simpa using ht)⟩) (by simp)

theorem statementsMend_filled (before run : List Token) (next : Option Token) :
    Filled statementFault (fun u _ => [.lineBreak u.position]) before run next
      (statementsMend.apply before run next) := Mend.between_filled before run next

theorem fixStatements_tokens (s : Sheet) :
    fixStatements s.tokens = (s.mend statementsMend).tokens :=
  (statementGaps_chosen s).fillGaps_tokens (fillsBy_placeAt .lineBreak) _ _

theorem checkStatements_tokens (s : Sheet) :
    checkStatements s.tokens = [] ↔
      s.Holds fun before run next => flawless statementFault before run.tokens next := by
  rw [checkStatements, List.map_eq_nil_iff, (statementGaps_chosen s).eq_nil_iff]

/-! ### Printing -/

/-- Printing with another number of line breaks before it than required. -/
def printlnFault (blankLines : Nat) (before run : List Token) (next : Token) : Bool :=
  next.isBuiltin .println &&
    (before.head?.bind fun u => requiredBreaks blankLines u.kind).any (Blank.breaks run ≠ ·)

theorem printlnFault_iff {blankLines : Nat} {u v : Token} {us run : List Token} :
    printlnFault blankLines (u :: us) run v ↔
      v.isBuiltin .println ∧
        ∃ n, requiredBreaks blankLines u.kind = some n ∧ Blank.breaks run ≠ n := by
  simp only [printlnFault, List.head?_cons, Option.bind_some, Bool.and_eq_true]
  refine and_congr_right fun _ => ?_
  cases requiredBreaks blankLines u.kind <;> simp

theorem printlnGap_eq_some {blankLines : Nat} {ts : List Token} {t : Token} {i : Nat} {g : Gap} :
    (if t.isBuiltin .println then
      (prevSignificant? ts i).bind fun prev =>
        (requiredAt blankLines ts prev).bind fun required =>
          if Gap.breaks ⟨prev, i⟩ ts = required then none else some (⟨prev, i⟩ : Gap)
      else none) = some g ↔
      g.stop = i ∧ t.isBuiltin .println ∧ prevSignificant? ts i = some g.start ∧
        ∃ required, requiredAt blankLines ts g.start = some required ∧ g.breaks ts ≠ required := by
  simp only [Option.ite_none_right_eq_some, Option.ite_none_left_eq_some, Option.bind_eq_some_iff,
    Option.some.injEq]
  constructor
  · rintro ⟨hk, prev, hprev, required, hr, hb, rfl⟩
    exact ⟨rfl, hk, hprev, required, hr, hb⟩
  · rintro ⟨rfl, hk, hprev, required, hr, hb⟩
    exact ⟨hk, g.start, hprev, required, hr, hb, rfl⟩

theorem mem_printlnGaps {blankLines : Nat} {ts : List Token} {g : Gap} :
    g ∈ printlnGaps blankLines ts ↔ ∃ t, ts[g.stop]? = some t ∧ t.isBuiltin .println ∧
      prevSignificant? ts g.stop = some g.start ∧
      ∃ required, requiredAt blankLines ts g.start = some required ∧ g.breaks ts ≠ required := by
  rw [printlnGaps, List.mem_filterMap]
  constructor
  · rintro ⟨⟨t, i⟩, hmem, h⟩
    obtain ⟨rfl, h⟩ := printlnGap_eq_some.mp h
    exact ⟨t, List.mk_mem_zipIdx_iff_getElem?.mp hmem, h⟩
  · rintro ⟨t, ht, h⟩
    exact ⟨(t, g.stop), List.mk_mem_zipIdx_iff_getElem?.mpr ht, printlnGap_eq_some.mpr ⟨rfl, h⟩⟩

theorem printlnGaps_chosen {blankLines : Nat} {s : Sheet} (hc : ∀ t ∈ s.tokens, t.Consistent) :
    s.Chosen (printlnFault blankLines) (printlnGaps blankLines s.tokens) where
  nodup := nodup_filterMap_zipIdx fun t i u j g _ _ hi hj =>
    (printlnGap_eq_some.mp hi).1.symm.trans (printlnGap_eq_some.mp hj).1
  sub g hg := by
    obtain ⟨t, ht, hp, hprev, -⟩ := mem_printlnGaps.mp hg
    obtain ⟨front, u, run, back, hs, hrun, hu, hstart, hstop⟩ := prevSignificant?_eq_some hprev ht
    have hsolid : t.isTrivia = false := (hc t (List.mem_of_getElem? ht)).isTrivia_of_isBuiltin hp
    have hnext : nextSignificant? s.tokens g.start = some g.stop := by
      rw [hs, hstart, hstop, nextSignificant?_append hrun hsolid]
    exact s.mem_gaps (u := u) (by simp [hs, hstart]) hu hnext
  mem_iff front c d cs hs := by
    rw [mem_printlnGaps, hs, joinCells_cons c, breaks_between, joinCells_cons d,
      prevSignificant?_append c.solid c.run.blank, requiredAt_append]
    simp only [getElem?_append_run, Option.some.injEq, exists_eq_left', true_and,
      printlnFault_iff]

/-- New line breaks, with the indentation kept. -/
def printlnRun (blankLines : Nat) (u : Token) (run : List Token) : List Token :=
  List.replicate ((requiredBreaks blankLines u.kind).getD 1) (.lineBreak u.position) ++
    indentation run

theorem fillsBy_printlnTrivia (blankLines : Nat) :
    FillsBy (printlnTrivia blankLines) (printlnRun blankLines) := by
  intro front c back
  rw [printlnTrivia, requiredAt_append, placeAt_append, inside_between]
  rfl

theorem indentation_subset (run : List Token) : ∀ t ∈ indentation run, t ∈ run := by
  intro t ht
  rw [indentation] at ht
  split at ht
  · exact List.mem_reverse.mp ((List.takeWhile_sublist _).subset (List.mem_reverse.mp ht))
  · cases ht

theorem requiredBreaks_pos {blankLines : Nat} {k : Kind} {n : Nat}
    (h : requiredBreaks blankLines k = some n) : 0 < n := by
  unfold requiredBreaks at h
  split at h <;> simp_all
  all_goals omega

theorem requiredBreaks_le {blankLines : Nat} {k : Kind} {n : Nat}
    (h : requiredBreaks blankLines k = some n) : n ≤ blankLines + 1 := by
  unfold requiredBreaks at h
  split at h <;> simp_all

@[simp] theorem breaks_indentation (run : List Token) : Blank.breaks (indentation run) = 0 := by
  rw [Blank.breaks, List.countP_eq_zero]
  intro t ht
  rw [indentation] at ht
  split at ht
  · simpa using List.mem_takeWhile_imp (List.mem_reverse.mp ht)
  · cases ht

@[simp] theorem breaks_printlnRun (blankLines : Nat) (u : Token) (run : List Token) :
    Blank.breaks (printlnRun blankLines u run) = (requiredBreaks blankLines u.kind).getD 1 := by
  have hind := breaks_indentation run
  rw [Blank.breaks] at hind
  rw [printlnRun, Blank.breaks, List.countP_append, hind, List.countP_replicate]
  simp [Token.lineBreak]

/-- Printing never starts behind a token on its line. -/
theorem printlnRun_eq_cons (blankLines : Nat) (u : Token) (run : List Token) :
    ∃ ts, printlnRun blankLines u run = .lineBreak u.position :: ts := by
  have hpos : 0 < (requiredBreaks blankLines u.kind).getD 1 := by
    cases h : requiredBreaks blankLines u.kind with
    | none => exact Nat.one_pos
    | some n => exact requiredBreaks_pos h
  obtain ⟨n, hn⟩ := Nat.exists_eq_add_of_lt hpos
  rw [printlnRun, hn, Nat.zero_add, List.replicate_succ]
  exact ⟨_, rfl⟩

def printlnMend (blankLines : Nat) : Mend :=
  .between (printlnFault blankLines) (printlnRun blankLines)
    (fun u run t ht => by
      rcases List.mem_append.mp ht with ht | ht
      · exact .inr ⟨u.position, .inr (List.eq_of_mem_replicate ht)⟩
      · exact .inl (indentation_subset run t ht))
    (fun u us run v h hnil => by
      obtain ⟨-, n, hn, -⟩ := printlnFault_iff.mp h
      have hpos := requiredBreaks_pos hn
      obtain ⟨hnone, -⟩ := List.append_eq_nil_iff.mp hnil
      rw [hn, Option.getD_some, List.replicate_eq_nil_iff] at hnone
      omega)

theorem printlnMend_filled (blankLines : Nat) (before run : List Token) (next : Option Token) :
    Filled (printlnFault blankLines) (printlnRun blankLines) before run next
      ((printlnMend blankLines).apply before run next) := Mend.between_filled before run next

theorem fixPrintln_tokens {blankLines : Nat} {s : Sheet} (hc : ∀ t ∈ s.tokens, t.Consistent) :
    fixPrintln blankLines s.tokens = (s.mend (printlnMend blankLines)).tokens :=
  (printlnGaps_chosen hc).fillGaps_tokens (fillsBy_printlnTrivia blankLines) _ _

theorem checkPrintln_tokens {blankLines : Nat} {s : Sheet} (hc : ∀ t ∈ s.tokens, t.Consistent) :
    checkPrintln blankLines s.tokens = [] ↔ s.Holds fun before run next =>
      flawless (printlnFault blankLines) before run.tokens next := by
  rw [← (printlnGaps_chosen hc).eq_nil_iff, checkPrintln, List.filterMap_eq_nil_iff,
    List.eq_nil_iff_forall_not_mem]
  refine forall_congr' fun g => ?_
  refine ⟨fun h hg => ?_, fun h hg => absurd hg h⟩
  obtain ⟨t, -, -, -, required, hr, -⟩ := mem_printlnGaps.mp hg
  simpa [hr] using h hg

end Layout
end LetScript
