import LetScript.Proofs.Sheet
import LetScript.Style.Spacing

/-! Spaces around signs, and superfluous trivia, run by run. Each check is a
condition on every run of a sheet, and each fix mends the runs. -/
namespace LetScript
namespace Padding

/-- Whether the tokens on the two sides of a run want a space between them. -/
def wants (s : Sides) (target : Target) (before : List Token) (next : Option Token) : Bool :=
  match before, next with
  | u :: us, some v =>
    (target (us.head?.map Token.kind) u).isSome && s.after ||
      (target (some u.kind) v).isSome && s.before
  | _, _ => false

def mend (s : Sides) (target : Target) : Mend where
  apply before run next :=
    match run, next with
    | [], some v => if wants s target before next then [.space v.position] else []
    | run, _ => run
  fresh before run next t ht := by
    split at ht
    · rename_i v
      split at ht
      · exact .inr ⟨v.position, .inl (by simpa using ht)⟩
      · simp at ht
    · exact .inl ht
  keeps before run next h := by
    cases run with
    | nil => exact absurd rfl h
    | cons t run => exact h

/-- An empty run stands where no space is wanted. -/
def ok (s : Sides) (target : Target) (before run : List Token) (next : Option Token) : Prop :=
  run = [] → wants s target before next = false

/-- A target is never trivia. -/
def Quiet (target : Target) : Prop :=
  ∀ prior t, t.isTrivia → t.Consistent → target prior t = none

theorem markFrom_run {target : Target} (hq : Quiet target) {r : Run}
    (hr : ∀ t ∈ r.tokens, t.Consistent) (prior : Option Kind) (ts : List Token) :
    markFrom target prior (r.tokens ++ ts) =
      r.tokens.map (fun t => ⟨t, none⟩) ++ markFrom target prior ts := by
  obtain ⟨run, hrun⟩ := r
  induction run with
  | nil => rfl
  | cons t run ih =>
    have ht := hrun t (by simp)
    rw [List.cons_append, markFrom, hq prior t ht (hr t (by simp)), ht]
    simp only [if_true, List.map_cons, List.cons_append, List.cons.injEq, true_and]
    exact ih (fun u hu => hrun u (by simp [hu])) fun u hu => hr u (by simp [hu])

@[simp] theorem markFrom_solid {target : Target} (prior : Option Kind) (c : Cell)
    (ts : List Token) :
    markFrom target prior (c.token :: ts) =
      ⟨c.token, target prior c.token⟩ :: markFrom target (some c.token.kind) ts := by
  simp [markFrom, c.solid]

/-- No space is put in behind trivia. -/
@[simp] theorem spread_run (s : Sides) (r : Run) (ms : List Marked) :
    spread s (r.tokens.map (fun t => ⟨t, none⟩) ++ ms) = r.tokens ++ spread s ms := by
  obtain ⟨run, hrun⟩ := r
  induction run with
  | nil => rfl
  | cons t run ih =>
    have ih := ih fun u hu => hrun u (by simp [hu])
    simp only [List.map_cons, List.cons_append] at ih ⊢
    cases hms : run.map (fun t => (⟨t, none⟩ : Marked)) ++ ms with
    | nil => simp_all [spread]
    | cons m rest =>
      rw [spread, ← hms, ih]
      simp [needsSpace, hrun t (by simp)]

theorem spread_cells {s : Sides} {target : Target} (hq : Quiet target) (before : List Token)
    {cs : List Cell} (hc : ∀ t ∈ joinCells cs, t.Consistent) :
    spread s (markFrom target (before.head?.map Token.kind) (joinCells cs)) =
      joinCells ((mend s target).cells before cs) := by
  induction cs generalizing before with
  | nil => rfl
  | cons c cs ih =>
    simp only [joinCells_cons, List.mem_cons, List.mem_append, forall_eq_or_imp] at hc
    have ih := ih (c.token :: before) fun t ht => hc.2 t (.inr ht)
    simp only [List.head?_cons, Option.map_some] at ih
    rw [joinCells_cons, markFrom_solid, markFrom_run hq fun t ht => hc.2 t (.inl ht), Mend.cells,
      joinCells_cons, ← ih]
    cases hrun : c.run.tokens with
    | nil =>
      cases cs with
      | nil => simp [markFrom, spread, Mend.run, mend, hrun]
      | cons d ds =>
        have hwants : needsSpace s ⟨c.token, target (before.head?.map Token.kind) c.token⟩
            ⟨d.token, target (some c.token.kind) d.token⟩ =
              wants s target (c.token :: before) (some d.token) := by
          simp [needsSpace, wants, c.solid, d.solid]
        simp only [joinCells_cons, markFrom_solid, List.map_nil, List.nil_append, spread, hwants,
          Mend.run, mend, hrun, nextToken_cons]
        split <;> rfl
    | cons t run =>
      have hspread := spread_run s c.run (markFrom target (some c.token.kind) (joinCells cs))
      rw [hrun, List.map_cons, List.cons_append] at hspread
      rw [List.map_cons, List.cons_append, spread, hspread]
      simp [needsSpace, c.run.blank t (by simp [hrun]), Mend.run, mend, hrun]

/-- Putting spaces in mends the runs. -/
theorem fix_tokens {s : Sides} {target : Target} (hq : Quiet target) {sh : Sheet}
    (hc : ∀ t ∈ sh.tokens, t.Consistent) :
    fix s target sh.tokens = (sh.mend (mend s target)).tokens := by
  have hlead : (sh.mend (mend s target)).lead.tokens = sh.lead.tokens := by
    simp only [Sheet.mend, Mend.run, mend]
    split
    · rename_i hrun _
      rw [hrun]
      rfl
    · rfl
  rw [fix, mark, Sheet.tokens, markFrom_run hq fun t ht => hc t (List.mem_append_left _ ht),
    spread_run, Sheet.tokens, hlead]
  exact congrArg _ (spread_cells hq [] fun t ht => hc t (List.mem_append_right _ ht))

theorem unpaddedFrom_cons_eq_nil (s : Sides) (before : Option Token) (m : Marked)
    (ms : List Marked) :
    unpaddedFrom s before (m :: ms) = [] ↔
      (m.violation.isSome &&
        (s.before && touches before || s.after && touches (ms.head?.map Marked.token))) = false ∧
        unpaddedFrom s (some m.token) ms = [] := by
  rw [unpaddedFrom]
  cases m.violation with
  | none => simp
  | some v =>
    simp only [Option.isSome_some, Bool.true_and]
    generalize (s.before && touches before || _) = tight
    cases tight <;> simp

@[simp] theorem unpaddedFrom_run (s : Sides) (r : Run) (before : Option Token) (ms : List Marked) :
    unpaddedFrom s before (r.tokens.map (fun t => ⟨t, none⟩) ++ ms) =
      unpaddedFrom s (r.tokens.getLast?.or before) ms := by
  obtain ⟨run, hrun⟩ := r
  induction run generalizing before with
  | nil => simp
  | cons t run ih =>
    rw [List.map_cons, List.cons_append, unpaddedFrom]
    simp only [ih (some t) fun u hu => hrun u (by simp [hu])]
    rw [List.getLast?_cons]
    cases run.getLast? <;> rfl

@[simp] theorem touches_run (r : Run) (before : Option Token) :
    touches (r.tokens.getLast?.or before) = (r.tokens.isEmpty && touches before) := by
  cases hr : r.tokens.getLast? with
  | none => simp [List.getLast?_eq_none_iff.mp hr]
  | some t =>
    have hmem := List.mem_of_getLast? hr
    have hne : r.tokens.isEmpty = false := by
      cases h : r.tokens with
      | nil => simp [h] at hmem
      | cons _ _ => rfl
    simp [touches, r.blank t hmem, hne]

/-- The first significant token has the space before it that it wants. -/
def frontOk (s : Sides) (target : Target) (prior : Option Kind) (before : Option Token)
    (cs : List Cell) : Prop :=
  ∀ v ∈ nextToken cs, ((target prior v).isSome && s.before && touches before) = false

theorem unpaddedFrom_cells {s : Sides} {target : Target} (hq : Quiet target) (before : List Token)
    {cs : List Cell} (hc : ∀ t ∈ joinCells cs, t.Consistent) (prev : Option Token) :
    unpaddedFrom s prev (markFrom target (before.head?.map Token.kind) (joinCells cs)) = [] ↔
      frontOk s target (before.head?.map Token.kind) prev cs ∧
        CellsHold (fun before run next => ok s target before run.tokens next) before cs := by
  induction cs generalizing before prev with
  | nil => simp [markFrom, unpaddedFrom, frontOk, CellsHold]
  | cons c cs ih =>
    simp only [joinCells_cons, List.mem_cons, List.mem_append, forall_eq_or_imp] at hc
    have ih := ih (c.token :: before) (fun t ht => hc.2 t (.inr ht))
      (c.run.tokens.getLast?.or (some c.token))
    simp only [List.head?_cons, Option.map_some] at ih
    rw [joinCells_cons, markFrom_solid, markFrom_run hq fun t ht => hc.2 t (.inl ht),
      unpaddedFrom_cons_eq_nil, unpaddedFrom_run]
    have hnext : touches (((c.run.tokens.map fun t => (⟨t, none⟩ : Marked)) ++
        markFrom target (some c.token.kind) (joinCells cs)).head?.map Marked.token) =
          (c.run.tokens.isEmpty && (nextToken cs).isSome) := by
      cases hrun : c.run.tokens with
      | nil =>
        cases cs with
        | nil => rfl
        | cons d ds => simp [touches, d.solid]
      | cons t run => simp [touches, c.run.blank t (by simp [hrun])]
    have hlast : touches (c.run.tokens.getLast?.or (some c.token)) = c.run.tokens.isEmpty := by
      rw [touches_run]
      simp [touches, c.solid]
    simp only [hnext, CellsHold, frontOk, hlast, nextToken_cons, Option.mem_some,
      forall_eq'] at ih ⊢
    rw [ih, ok, ← List.isEmpty_iff, ← and_assoc, ← and_assoc]
    refine and_congr_left fun _ => ?_
    generalize hfirst : (target (before.head?.map Token.kind) c.token).isSome = first
    cases nextToken cs with
    | none => cases first <;> simp [wants]
    | some v =>
      simp only [Option.mem_some, forall_eq', Option.isSome_some, wants, hfirst]
      generalize (target (some c.token.kind) v).isSome = second
      cases first <;> cases second <;> cases s.before <;> cases s.after <;>
        cases c.run.tokens.isEmpty <;> simp

/-- Nothing is found exactly if every run is as wanted. -/
theorem check_tokens {s : Sides} {target : Target} (hq : Quiet target) {sh : Sheet}
    (hc : ∀ t ∈ sh.tokens, t.Consistent) :
    check s target sh.tokens = [] ↔
      sh.Holds fun before run next => ok s target before run.tokens next := by
  have hfront (prev : Option Token) (h : touches prev = false) :
      frontOk s target none prev sh.cells := by
    intro v _
    simp [h]
  have hlead : ok s target [] sh.lead.tokens (nextToken sh.cells) := fun _ => rfl
  rw [check, mark, Sheet.tokens, markFrom_run hq fun t ht => hc t (List.mem_append_left _ ht),
    unpaddedFrom_run]
  have hcells := unpaddedFrom_cells (s := s) hq []
    (fun t ht => hc t (List.mem_append_right _ ht)) (sh.lead.tokens.getLast?.or none)
  refine hcells.trans ⟨fun h => ⟨hlead, h.2⟩, fun h => ⟨hfront _ ?_, h.2⟩⟩
  rw [touches_run]
  simp [touches]

theorem ok_mend (s : Sides) (target : Target) (before run : List Token) (next : Option Token) :
    ok s target before ((mend s target).apply before run next) next := by
  intro hempty
  simp only [mend] at hempty
  split at hempty
  · split at hempty
    · cases hempty
    · rename_i h
      simpa using h
  · rename_i hrun
    cases next with
    | none => cases before <;> rfl
    | some v => exact absurd rfl (hrun v hempty)

/-- No mending closes a run up, so none takes a wanted space away. -/
theorem ok_of_keeps {s : Sides} {target : Target} (m : Mend) {before run : List Token}
    {next : Option Token} (h : ok s target before run next) :
    ok s target before (m.apply before run next) next :=
  fun hempty => h (Classical.byContradiction fun hne => m.keeps _ _ _ hne hempty)

theorem quiet_colonBefore : Quiet colonBefore := by
  intro prior t ht _
  have hk : t.kind ≠ .colon := by
    intro hk
    simp [Token.isTrivia, hk, Kind.isTrivia] at ht
  simp [colonBefore, hk]

theorem quiet_colonAfter : Quiet colonAfter := by
  intro prior t ht _
  have hk : t.kind ≠ .colon := by
    intro hk
    simp [Token.isTrivia, hk, Kind.isTrivia] at ht
  simp [colonAfter, hk]

theorem quiet_equalSign : Quiet equalSign := by
  intro prior t ht hc
  obtain ⟨text, hv⟩ := hc.value_of_isTrivia ht
  simp [equalSign, Token.isOperator, hv]

theorem quiet_binaryOperator : Quiet binaryOperator := by
  intro prior t ht hc
  obtain ⟨text, hv⟩ := hc.value_of_isTrivia ht
  simp [binaryOperator, hv]

end Padding

namespace Blank

/-- What stands behind a run of trivia. -/
def Before.after (b : Before) (ts : List Token) : Before := ts.foldl (fun b t => b.next t.kind) b

@[simp] theorem Before.after_append (b : Before) (as bs : List Token) :
    b.after (as ++ bs) = (b.after as).after bs :=
  List.foldl_append

/-- A line has begun with something else than a blank if the last such token is no line break. -/
theorem Before.after_lineStart (front : List Token) :
    Before.lineStart.after front ≠ .lineStart ↔
      ((front.filter fun t => t.kind ≠ .whitespace).getLast?.any fun t => t.kind ≠ .newline) := by
  induction front using List.reverseRecOn with
  | nil => simp [Before.after]
  | append_singleton front t ih =>
    rw [Before.after_append, List.filter_append]
    cases hk : t.kind with
    | whitespace =>
      have hnext : (Before.lineStart.after front).after [t] ≠ .lineStart ↔
          Before.lineStart.after front ≠ .lineStart := by
        cases h : Before.lineStart.after front <;> simp [Before.after, Before.next, hk]
      rw [hnext, ih]
      simp [hk]
    | _ => cases Before.lineStart.after front <;> simp [Before.after, Before.next, hk]

theorem Before.after_singleton_eq_space (b : Before) (t : Token) :
    b.after [t] = .space ↔ t.kind = .whitespace ∧ b ≠ .lineStart := by
  cases hk : t.kind <;> cases b <;> simp [Before.after, Before.next, hk]

@[simp] theorem markSpaces_append (b : Before) (as bs : List Token) :
    markSpaces b (as ++ bs) = markSpaces b as ++ markSpaces (b.after as) bs := by
  induction as generalizing b with
  | nil => rfl
  | cons t as ih => simp [markSpaces, ih, Before.after]

@[simp] theorem dropMarked_append (ms ns : List (Token × Bool)) :
    dropMarked (ms ++ ns) = dropMarked ms ++ dropMarked ns := by
  simp [dropMarked]

@[simp] theorem markSpaces_solid (b : Before) (c : Cell) (ts : List Token) :
    markSpaces b (c.token :: ts) = (c.token, false) :: markSpaces .token ts := by
  have hsolid := c.solid
  simp only [Token.isTrivia, Kind.isTrivia, Bool.or_eq_false_iff, beq_eq_false_iff_ne] at hsolid
  have hnext : b.next c.token.kind = .token := by
    cases b <;> cases hk : c.token.kind <;> simp_all [Before.next]
  simp [markSpaces, hnext, hsolid.1]

theorem lineStart_next {t : Token} (ht : t.isTrivia) :
    Before.lineStart.next t.kind = .lineStart := by
  simp only [Token.isTrivia, Kind.isTrivia, Bool.or_eq_true, beq_iff_eq] at ht
  rcases ht with h | h <;> rw [h] <;> rfl

/-- At the start of a line no blank is superfluous. -/
@[simp] theorem markSpaces_lineStart (r : Run) :
    markSpaces .lineStart r.tokens = r.tokens.map fun t => (t, false) := by
  obtain ⟨run, hrun⟩ := r
  induction run with
  | nil => rfl
  | cons t run ih =>
    simp [markSpaces, lineStart_next (hrun t (by simp)), ih fun u hu => hrun u (by simp [hu])]

@[simp] theorem dropMarked_map_false (ts : List Token) :
    dropMarked (ts.map fun t => (t, false)) = ts := by
  induction ts with
  | nil => rfl
  | cons t ts ih => simp [dropMarked]

theorem dropMarked_subset (ms : List (Token × Bool)) :
    ∀ t ∈ dropMarked ms, t ∈ ms.map Prod.fst := by
  intro t ht
  obtain ⟨m, hm, h⟩ := List.mem_filterMap.mp ht
  split at h
  · cases h
  · exact List.mem_map.mpr ⟨m, hm, Option.some.inj h⟩

@[simp] theorem map_fst_markSpaces (b : Before) (ts : List Token) :
    (markSpaces b ts).map Prod.fst = ts := by
  induction ts generalizing b with
  | nil => rfl
  | cons t ts ih => simp [markSpaces, ih]

/-- Drop the blanks behind a space. The trivia at the very front stays. -/
def spacesMend : Mend where
  apply before run _ := if before = [] then run else dropMarked (markSpaces .token run)
  fresh before run next t ht := by
    split at ht
    · exact .inl ht
    · exact .inl (map_fst_markSpaces .token run ▸ dropMarked_subset _ t ht)
  keeps before run next h := by
    cases run with
    | nil => exact absurd rfl h
    | cons t run => split <;> simp [markSpaces, dropMarked]

/-- No blank of the run is superfluous. -/
def spacesOk (before run : List Token) : Prop :=
  before = [] ∨ ∀ m ∈ markSpaces .token run, m.2 = false

theorem dropMarked_markSpaces_cells (b : Before) (before : List Token) (cs : List Cell) :
    dropMarked (markSpaces b (joinCells cs)) = joinCells (spacesMend.cells before cs) := by
  induction cs generalizing b before with
  | nil => rfl
  | cons c cs ih =>
    rw [joinCells_cons, markSpaces_solid, markSpaces_append, Mend.cells, joinCells_cons]
    have hcons (ms : List (Token × Bool)) :
        dropMarked ((c.token, false) :: ms) = c.token :: dropMarked ms := rfl
    rw [hcons, dropMarked_append, ih _ (c.token :: before)]
    simp [Mend.run, spacesMend]

theorem fixSpaces_tokens (s : Sheet) : fixSpaces s.tokens = (s.mend spacesMend).tokens := by
  rw [fixSpaces, Sheet.tokens, markSpaces_append, markSpaces_lineStart, dropMarked_append,
    dropMarked_map_false, dropMarked_markSpaces_cells _ []]
  rfl

theorem checkSpaces_eq_nil (ts : List Token) :
    checkSpaces ts = [] ↔ ∀ m ∈ markSpaces .lineStart ts, m.2 = false := by
  rw [checkSpaces, List.filterMap_eq_nil_iff]
  refine forall₂_congr fun m _ => ?_
  cases m.2 <;> simp

theorem markSpaces_cells (b : Before) (before : List Token) (cs : List Cell) :
    (∀ m ∈ markSpaces b (joinCells cs), m.2 = false) ↔
      CellsHold (fun before run _ => spacesOk before run.tokens) before cs := by
  induction cs generalizing b before with
  | nil => simp [markSpaces, CellsHold]
  | cons c cs ih =>
    rw [joinCells_cons, markSpaces_solid, markSpaces_append, CellsHold,
      ← ih (Before.token.after c.run.tokens), spacesOk]
    simp [or_imp, forall_and]

theorem checkSpaces_tokens (s : Sheet) :
    checkSpaces s.tokens = [] ↔ s.Holds fun before run _ => spacesOk before run.tokens := by
  rw [checkSpaces_eq_nil, Sheet.tokens, markSpaces_append, markSpaces_lineStart, Sheet.Holds,
    ← markSpaces_cells (Before.lineStart.after s.lead.tokens)]
  simp only [List.mem_append, List.mem_map, or_imp, forall_and, spacesOk, true_or, true_and]
  refine and_iff_right ?_
  rintro m ⟨t, -, rfl⟩
  rfl

@[simp] theorem dropMarked_cons (t : Token) (marked : Bool) (ms : List (Token × Bool)) :
    dropMarked ((t, marked) :: ms) = if marked then dropMarked ms else t :: dropMarked ms := by
  cases marked <;> rfl

theorem markSpaces_dropMarked (b : Before) (run : List Token) :
    ∀ m ∈ markSpaces b (dropMarked (markSpaces b run)), m.2 = false := by
  induction run generalizing b with
  | nil => simp [markSpaces, dropMarked]
  | cons t run ih =>
    rw [markSpaces, dropMarked_cons]
    split
    · rename_i h
      simp only [Bool.and_eq_true, decide_eq_true_eq] at h
      have hnext : b.next t.kind = b := by rw [h.1, h.2]; rfl
      have := ih (b.next t.kind)
      rwa [hnext] at this ⊢
    · rename_i h
      simpa [markSpaces, h] using ih (b.next t.kind)

theorem spacesOk_mend (before run : List Token) (next : Option Token) :
    spacesOk before (spacesMend.apply before run next) := by
  by_cases h : before = []
  · exact .inl h
  · refine .inr ?_
    simpa [spacesMend, h] using markSpaces_dropMarked .token run

/-! ### Line breaks -/

/-- How many line breaks a run has. -/
def breaks (run : List Token) : Nat := run.countP fun t => t.kind = .newline

@[simp] theorem breaks_nil : breaks [] = 0 := rfl

@[simp] theorem breaks_cons (t : Token) (run : List Token) :
    breaks (t :: run) = breaks run + if t.kind = .newline then 1 else 0 := by
  simp [breaks, List.countP_cons]

@[simp] theorem takeWhile_isTrivia (r : Run) (cs : List Cell) :
    (r.tokens ++ joinCells cs).takeWhile Token.isTrivia = r.tokens := by
  rw [List.takeWhile_append_of_pos r.blank]
  cases cs with
  | nil => simp
  | cons c cs => simp [c.solid]

theorem breakAhead_eq (r : Run) (cs : List Cell) :
    breakAhead (r.tokens ++ joinCells cs) = decide (0 < breaks r.tokens) := by
  rw [breakAhead, takeWhile_isTrivia, breaks, ← Bool.coe_iff_coe]
  simp [List.countP_pos_iff]

@[simp] theorem markLines_solid (count : Nat) (c : Cell) (ts : List Token) :
    markLines count (c.token :: ts) = (c.token, false) :: markLines 0 ts := by
  have hahead : breakAhead (c.token :: ts) = false := by simp [breakAhead, c.solid]
  have hkind : c.token.kind ≠ .newline := by
    intro h
    simpa [Token.isTrivia, h, Kind.isTrivia] using c.solid
  rw [markLines, hahead]
  simp [hkind, c.solid]

/-- The runs of a list are marked one by one. -/
@[simp] theorem markLines_append (count : Nat) (r : Run) (cs : List Cell) :
    markLines count (r.tokens ++ joinCells cs) =
      markLines count r.tokens ++ markLines 0 (joinCells cs) := by
  obtain ⟨run, hrun⟩ := r
  induction run generalizing count with
  | nil =>
    cases cs with
    | nil => rfl
    | cons c cs => simp [markLines]
  | cons t run ih =>
    have hahead := breakAhead_eq ⟨t :: run, hrun⟩ cs
    have hahead' := breakAhead_eq ⟨t :: run, hrun⟩ []
    simp only [joinCells_nil, List.append_nil, List.cons_append] at hahead hahead'
    simp only [List.cons_append, markLines, hahead, hahead', List.cons.injEq, true_and]
    exact ih _ fun u hu => hrun u (by simp [hu])

@[simp] theorem map_fst_markLines (count : Nat) (ts : List Token) :
    (markLines count ts).map Prod.fst = ts := by
  induction ts generalizing count with
  | nil => rfl
  | cons t ts ih => simp [markLines, ih]

/-- Drop the trivia behind two line breaks up to the last one. -/
def linesMend : Mend where
  apply _ run _ := dropMarked (markLines 0 run)
  fresh before run next t ht := .inl (map_fst_markLines 0 run ▸ dropMarked_subset _ t ht)
  keeps before run next h := by
    cases run with
    | nil => exact absurd rfl h
    | cons t run => simp [markLines, dropMarked]

theorem dropMarked_markLines_cells (before : List Token) (cs : List Cell) :
    dropMarked (markLines 0 (joinCells cs)) = joinCells (linesMend.cells before cs) := by
  induction cs generalizing before with
  | nil => rfl
  | cons c cs ih =>
    rw [joinCells_cons, markLines_solid, markLines_append, Mend.cells, joinCells_cons,
      dropMarked_cons, dropMarked_append, ih (c.token :: before)]
    rfl

theorem fixLines_tokens (s : Sheet) : fixLines s.tokens = (s.mend linesMend).tokens := by
  rw [fixLines, Sheet.tokens, markLines_append, dropMarked_append, dropMarked_markLines_cells []]
  rfl

theorem markLines_cons (count : Nat) {t : Token} {run : List Token}
    (h : ∀ u ∈ t :: run, u.isTrivia) :
    markLines count (t :: run) =
      (t, decide (2 ≤ count) && decide (0 < breaks (t :: run))) ::
        markLines (count + if t.kind = .newline then 1 else 0) run := by
  have hahead := breakAhead_eq ⟨t :: run, h⟩ []
  simp only [joinCells_nil, List.append_nil] at hahead
  rw [markLines, hahead, h t (by simp)]
  split <;> rfl

/-- Of the line breaks of a run all but two are superfluous. -/
theorem markLines_breaks (count : Nat) (r : Run) :
    (∀ m ∈ markLines count r.tokens, m.2 = true → m.1.kind ≠ .newline) ↔
      breaks r.tokens = 0 ∨ count + breaks r.tokens ≤ 2 := by
  obtain ⟨run, hrun⟩ := r
  induction run generalizing count with
  | nil => simp [markLines]
  | cons t run ih =>
    have ih := fun n => ih n fun u hu => hrun u (by simp [hu])
    simp only [markLines_cons count hrun, List.forall_mem_cons, breaks_cons, ih]
    by_cases hk : t.kind = .newline
    · simp only [hk, if_true, Bool.and_eq_true, decide_eq_true_eq, ne_eq, not_true_eq_false,
        imp_false]
      omega
    · simp [hk]

/-- At most one blank line. -/
def linesOk (run : List Token) : Prop := breaks run ≤ 2

theorem markLines_cells (before : List Token) (cs : List Cell) :
    (∀ m ∈ markLines 0 (joinCells cs), m.2 = true → m.1.kind ≠ .newline) ↔
      CellsHold (fun _ run _ => linesOk run.tokens) before cs := by
  induction cs generalizing before with
  | nil => simp [markLines, CellsHold]
  | cons c cs ih =>
    rw [joinCells_cons, markLines_solid, markLines_append, CellsHold, ← ih]
    simp only [List.forall_mem_cons, List.forall_mem_append, markLines_breaks, linesOk,
      Bool.false_eq_true, false_implies, true_and]
    refine and_congr_left fun _ => ?_
    omega

theorem checkLines_tokens (s : Sheet) :
    checkLines s.tokens = [] ↔ s.Holds fun _ run _ => linesOk run.tokens := by
  have hnil (ms : List (Token × Bool)) :
      (ms.filterMap fun m =>
        if m.2 && m.1.kind = .newline then
          some (⟨.tooManyBlankLines, m.1.position⟩ : Remark) else none) = [] ↔
        ∀ m ∈ ms, m.2 = true → m.1.kind ≠ .newline := by
    simp only [List.filterMap_eq_nil_iff]
    refine forall₂_congr fun m _ => ?_
    by_cases hk : m.1.kind = .newline <;> cases m.2 <;> simp [hk]
  rw [checkLines, hnil, Sheet.tokens, markLines_append, Sheet.Holds, ← markLines_cells,
    List.forall_mem_append, markLines_breaks, linesOk]
  refine and_congr_left fun _ => ?_
  omega

/-- Dropping leaves what there was, but at most two line breaks. -/
theorem breaks_dropMarked (count : Nat) (r : Run) :
    breaks (dropMarked (markLines count r.tokens)) = min (breaks r.tokens) (2 - count) := by
  obtain ⟨run, hrun⟩ := r
  induction run generalizing count with
  | nil => simp [markLines, dropMarked]
  | cons t run ih =>
    have ih := fun n => ih n fun u hu => hrun u (by simp [hu])
    simp only [markLines_cons count hrun, dropMarked_cons, Bool.and_eq_true, decide_eq_true_eq]
    split
    · rw [ih, breaks_cons]
      split <;> omega
    · rename_i h
      rw [breaks_cons] at h
      rw [breaks_cons, ih, breaks_cons]
      split at h <;> simp_all only [if_true, if_false] <;> omega

/-- Superfluous lines go without leaving superfluous spaces. From the second
line break on, both before and after, a line starts. -/
theorem markSpaces_dropMarked_markLines {count : Nat} {b : Before} {r : Run}
    (hb : 0 < count → b = .lineStart) (h : ∀ m ∈ markSpaces b r.tokens, m.2 = false) :
    ∀ m ∈ markSpaces b (dropMarked (markLines count r.tokens)), m.2 = false := by
  obtain ⟨run, hrun⟩ := r
  induction run generalizing count b with
  | nil => exact h
  | cons t run ih =>
    simp only [markSpaces, List.forall_mem_cons] at h
    have hnext : 0 < count + (if t.kind = .newline then 1 else 0) →
        b.next t.kind = .lineStart := by
      intro hpos
      split at hpos
      · rename_i hk
        rw [hk]
        cases b <;> rfl
      · rw [hb (by omega)]
        exact lineStart_next (hrun t (by simp))
    have ih := ih hnext (fun u hu => hrun u (by simp [hu])) h.2
    rw [markLines_cons count hrun, dropMarked_cons]
    split
    · rename_i hdrop
      simp only [Bool.and_eq_true, decide_eq_true_eq] at hdrop
      rwa [hnext (by omega), ← hb (by omega)] at ih
    · simp only [markSpaces, List.forall_mem_cons]
      exact ⟨h.1, ih⟩

/-! ### Fixes that leave no superfluous space -/

theorem spacesOk_space (before : List Token) (p : Position) : spacesOk before [.space p] :=
  .inr (by simp [markSpaces])

/-- Behind a line break every blank opens a line. -/
theorem spacesOk_of_newline {before : List Token} {t : Token} {ts : List Token}
    (ht : t.kind = .newline) (hts : ∀ u ∈ ts, u.isTrivia) : spacesOk before (t :: ts) := by
  refine .inr ?_
  have hline := markSpaces_lineStart ⟨ts, hts⟩
  simp [markSpaces, ht, Before.next, hline]

theorem spacesOk_padding {s : Padding.Sides} {target : Padding.Target} {before run : List Token}
    {next : Option Token} (h : spacesOk before run) :
    spacesOk before ((Padding.mend s target).apply before run next) := by
  simp only [Padding.mend]
  split
  · split
    · exact spacesOk_space _ _
    · exact h
  · exact h

theorem spacesOk_lines {before : List Token} {run : Run} {next : Option Token}
    (h : spacesOk before run.tokens) : spacesOk before (linesMend.apply before run.tokens next) :=
  h.imp_right (markSpaces_dropMarked_markLines (by simp))

end Blank
end LetScript
