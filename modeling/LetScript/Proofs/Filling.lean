import LetScript.Proofs.Sheet
import LetScript.Style.Gap

/-! Filling gaps. The gaps of a sheet lie between neighbouring significant
tokens. Filling some of them one after another, by their indices and from the
last to the first, puts new runs into all of them at once. -/
namespace LetScript

/-- The gaps of cells that begin at an index. Behind the last cell is none. -/
def gapsFrom (n : Nat) : List Cell → List Gap
  | [] => []
  | [_] => []
  | c :: d :: cs =>
    ⟨n, n + 1 + c.run.tokens.length⟩ :: gapsFrom (n + 1 + c.run.tokens.length) (d :: cs)

def Sheet.gaps (s : Sheet) : List Gap := gapsFrom s.lead.tokens.length s.cells

/-- The cells from an index on, with new runs in the chosen gaps. -/
def filledFrom (chosen : List Gap) (new : Token → List Token → List Token) (n : Nat) :
    List Cell → List Token
  | [] => []
  | [c] => c.tokens
  | c :: d :: cs =>
    c.token ::
      ((if ⟨n, n + 1 + c.run.tokens.length⟩ ∈ chosen then new c.token c.run.tokens
        else c.run.tokens) ++
        filledFrom chosen new (n + 1 + c.run.tokens.length) (d :: cs))

@[simp] theorem length_append_cell (front : List Token) (c : Cell) :
    (front ++ c.token :: c.run.tokens).length = front.length + 1 + c.run.tokens.length := by
  simp only [List.length_append, List.length_cons]
  omega

theorem start_of_mem_gapsFrom {n : Nat} {cs : List Cell} {g : Gap} (h : g ∈ gapsFrom n cs) :
    n ≤ g.start := by
  induction n, cs using gapsFrom.induct with
  | case1 => simp [gapsFrom] at h
  | case2 => simp [gapsFrom] at h
  | case3 n c d cs ih =>
    rw [gapsFrom, List.mem_cons] at h
    rcases h with rfl | h
    · exact Nat.le_refl n
    · have := ih h
      omega

theorem gapsFrom_pairwise (n : Nat) (cs : List Cell) :
    (gapsFrom n cs).Pairwise fun g h => g.start < h.start := by
  induction n, cs using gapsFrom.induct with
  | case1 => exact .nil
  | case2 => exact .nil
  | case3 n c d cs ih =>
    rw [gapsFrom, List.pairwise_cons]
    refine ⟨fun g hg => ?_, ih⟩
    have := start_of_mem_gapsFrom hg
    simp only
    omega

/-- What goes into a gap depends on nothing but the cell in front of it. -/
def FillsBy (fill : Gap → List Token → List Token) (new : Token → List Token → List Token) : Prop :=
  ∀ (front : List Token) (c : Cell) (back : List Token),
    fill ⟨front.length, front.length + 1 + c.run.tokens.length⟩
      (front ++ c.token :: (c.run.tokens ++ back)) = new c.token c.run.tokens

@[simp] theorem fill_append (front : List Token) (c : Cell) (new back : List Token) :
    Gap.fill ⟨front.length, front.length + 1 + c.run.tokens.length⟩ new
      (front ++ c.token :: (c.run.tokens ++ back)) = front ++ c.token :: (new ++ back) := by
  have htake : (front ++ c.token :: (c.run.tokens ++ back)).take (front.length + 1) =
      front ++ [c.token] := by
    have hfront : front.length + 1 = (front ++ [c.token]).length := by simp
    rw [hfront, List.append_cons front c.token (_ ++ _), List.take_left]
  have hdrop : (front ++ c.token :: (c.run.tokens ++ back)).drop
      (front.length + 1 + c.run.tokens.length) = back := by
    rw [← length_append_cell, ← List.cons_append, ← List.append_assoc, List.drop_left]
  rw [Gap.fill, htake, hdrop]
  simp

/-- Filling the chosen gaps in turn, the last one first. -/
theorem foldr_fill {fill : Gap → List Token → List Token} {new : Token → List Token → List Token}
    (hnew : FillsBy fill new) (chosen : List Gap) (front : List Token) (cs : List Cell) :
    ((gapsFrom front.length cs).filter (· ∈ chosen)).foldr (fun g ts => g.fill (fill g ts) ts)
      (front ++ joinCells cs) = front ++ filledFrom chosen new front.length cs := by
  match cs with
  | [] => rfl
  | [c] => simp [gapsFrom, filledFrom, Cell.tokens]
  | c :: d :: cs =>
    have ih := foldr_fill hnew chosen (front ++ c.token :: c.run.tokens) (d :: cs)
    simp only [length_append_cell, List.append_assoc, List.cons_append] at ih
    rw [gapsFrom, joinCells_cons c, filledFrom, List.filter_cons]
    split
    · rename_i hg
      rw [List.foldr_cons, ih, hnew, fill_append, if_pos (of_decide_eq_true hg)]
    · rename_i hg
      rw [ih, if_neg fun h => hg (decide_eq_true h)]
termination_by cs.length

theorem Gap.le_trans (g h k : Gap) (hgh : g.le h) (hhk : h.le k) : g.le k := by
  simp only [Gap.le, Bool.or_eq_true, Bool.and_eq_true, decide_eq_true_eq] at *
  omega

theorem Gap.le_total (g h : Gap) : (g.le h || h.le g) = true := by
  simp only [Gap.le, Bool.or_eq_true, Bool.and_eq_true, decide_eq_true_eq]
  omega

theorem Gap.le_antisymm {g h : Gap} (hgh : g.le h) (hhg : h.le g) : g = h := by
  obtain ⟨a, b⟩ := g
  obtain ⟨c, d⟩ := h
  simp only [Gap.le, Bool.or_eq_true, Bool.and_eq_true, decide_eq_true_eq] at hgh hhg
  simp only [Gap.mk.injEq]
  omega

/-- Sorting distinct gaps of a sheet lists them as they come in the sheet. -/
theorem Sheet.mergeSort_gaps {s : Sheet} {chosen : List Gap} (hnodup : chosen.Nodup)
    (hsub : ∀ g ∈ chosen, g ∈ s.gaps) :
    chosen.mergeSort Gap.le = s.gaps.filter (· ∈ chosen) := by
  have hstrict := gapsFrom_pairwise s.lead.tokens.length s.cells
  have hgaps : s.gaps.Nodup := hstrict.imp fun h heq => by simp [heq] at h
  have hsorted : (chosen.mergeSort Gap.le).Pairwise fun g h => g.le h :=
    List.pairwise_mergeSort Gap.le_trans Gap.le_total chosen
  refine List.Perm.eq_of_pairwise (fun g h _ _ => Gap.le_antisymm) hsorted ?_ ?_
  · refine (hstrict.imp fun {g h} hlt => ?_).filter _
    simp [Gap.le, hlt]
  · refine (List.mergeSort_perm chosen Gap.le).trans ?_
    rw [List.perm_ext_iff_of_nodup hnodup (hgaps.filter _)]
    simpa using fun g hg => hsub g hg

theorem fillGaps_eq {s : Sheet} {chosen : List Gap} {fill : Gap → List Token → List Token}
    {new : Token → List Token → List Token} (hnew : FillsBy fill new) (hnodup : chosen.Nodup)
    (hsub : ∀ g ∈ chosen, g ∈ s.gaps) :
    fillGaps fill chosen s.tokens =
      s.lead.tokens ++ filledFrom chosen new s.lead.tokens.length s.cells := by
  rw [fillGaps, Sheet.mergeSort_gaps hnodup hsub, Sheet.gaps, Sheet.tokens, foldr_fill hnew]

/-! ### Mending the faulty gaps -/

/-- Put a new run between two significant tokens where the run at hand is
faulty. A gap is judged by the significant tokens in front of it, the nearest
one first, by its run and by the token behind it. -/
def Mend.between (faulty : List Token → List Token → Token → Bool)
    (new : Token → List Token → List Token)
    (hfresh : ∀ u run, ∀ t ∈ new u run, t ∈ run ∨ t.IsFresh)
    (hkeeps : ∀ u us run v, faulty (u :: us) run v → new u run ≠ []) :
    Mend where
  apply before run next :=
    match before, next with
    | u :: us, some v => if faulty (u :: us) run v then new u run else run
    | _, _ => run
  fresh before run next t ht := by
    split at ht
    · split at ht
      · exact hfresh _ _ t ht
      · exact .inl ht
    · exact .inl ht
  keeps before run next h := by
    split
    · split
      · rename_i hf
        exact hkeeps _ _ _ _ hf
      · exact h
    · exact h

/-- No gap is faulty. -/
def flawless (faulty : List Token → List Token → Token → Bool) (before run : List Token)
    (next : Option Token) : Prop :=
  match before, next with
  | u :: us, some v => faulty (u :: us) run v = false
  | _, _ => True

/-- A run between two tokens is flawless and stays, or it is faulty and made anew. -/
def Filled (faulty : List Token → List Token → Token → Bool)
    (new : Token → List Token → List Token) (before run : List Token) (next : Option Token)
    (out : List Token) : Prop :=
  flawless faulty before run next ∧ out = run ∨
    ∃ u us v, before = u :: us ∧ next = some v ∧ faulty (u :: us) run v ∧ out = new u run

theorem Mend.between_filled {faulty : List Token → List Token → Token → Bool}
    {new : Token → List Token → List Token}
    {hfresh : ∀ u run, ∀ t ∈ new u run, t ∈ run ∨ t.IsFresh}
    {hkeeps : ∀ u us run v, faulty (u :: us) run v → new u run ≠ []}
    (before run : List Token) (next : Option Token) :
    Filled faulty new before run next
      ((Mend.between faulty new hfresh hkeeps).apply before run next) := by
  simp only [Filled, Mend.between, flawless]
  cases before with
  | nil => simp
  | cons u us =>
    cases next with
    | none => simp
    | some v => cases h : faulty (u :: us) run v <;> simp [h]

/-- A run that is no worse than a flawless one is flawless. -/
theorem flawless_of_imp {faulty : List Token → List Token → Token → Bool}
    {before run run' : List Token} {next : Option Token} (h : flawless faulty before run next)
    (himp : ∀ u us v, before = u :: us → next = some v → faulty (u :: us) run' v →
      faulty (u :: us) run v) : flawless faulty before run' next := by
  cases before with
  | nil => trivial
  | cons u us =>
    cases next with
    | none => trivial
    | some v =>
      simp only [flawless, Bool.eq_false_iff] at h ⊢
      exact fun hfault => h (himp u us v rfl rfl hfault)

/-- The chosen gaps are the faulty ones. -/
structure Sheet.Chosen (s : Sheet) (faulty : List Token → List Token → Token → Bool)
    (chosen : List Gap) : Prop where
  nodup : chosen.Nodup
  sub : ∀ g ∈ chosen, g ∈ s.gaps
  mem_iff : ∀ front c d cs, s.tokens = front ++ joinCells (c :: d :: cs) →
    (⟨front.length, front.length + 1 + c.run.tokens.length⟩ ∈ chosen ↔
      faulty (c.token :: (significant front).reverse) c.run.tokens d.token)

section
variable {s : Sheet} {faulty : List Token → List Token → Token → Bool} {chosen : List Gap}
  {new : Token → List Token → List Token}

theorem Sheet.Chosen.filledFrom (h : s.Chosen faulty chosen)
    (hfresh : ∀ u run, ∀ t ∈ new u run, t ∈ run ∨ t.IsFresh)
    (hkeeps : ∀ u us run v, faulty (u :: us) run v → new u run ≠ [])
    {front : List Token} {cs : List Cell} (hs : s.tokens = front ++ joinCells cs) :
    filledFrom chosen new front.length cs =
      joinCells ((Mend.between faulty new hfresh hkeeps).cells (significant front).reverse cs) := by
  match cs with
  | [] => rfl
  | [c] => simp [LetScript.filledFrom, Mend.cells, Mend.run, Mend.between, Cell.tokens]
  | c :: d :: cs =>
    have hs' : s.tokens = (front ++ c.token :: c.run.tokens) ++ joinCells (d :: cs) := by
      rw [hs, joinCells_cons c, List.append_assoc, List.cons_append]
    have ih := Sheet.Chosen.filledFrom h hfresh hkeeps hs'
    have hrun : ((Mend.between faulty new hfresh hkeeps).run
        (c.token :: (significant front).reverse) c.run (some d.token)).tokens =
          if ⟨front.length, front.length + 1 + c.run.tokens.length⟩ ∈ chosen then
            new c.token c.run.tokens else c.run.tokens := by
      simp only [Mend.run, Mend.between, h.mem_iff front c d cs hs]
    rw [length_append_cell, significant_append_cell] at ih
    rw [LetScript.filledFrom, ih, ← hrun, Mend.joinCells_cells_cons]
    rfl
termination_by cs.length

/-- Filling the faulty gaps by their indices mends the runs. -/
theorem Sheet.Chosen.fillGaps_tokens {fill : Gap → List Token → List Token}
    (h : s.Chosen faulty chosen) (hnew : FillsBy fill new)
    (hfresh : ∀ u run, ∀ t ∈ new u run, t ∈ run ∨ t.IsFresh)
    (hkeeps : ∀ u us run v, faulty (u :: us) run v → new u run ≠ []) :
    fillGaps fill chosen s.tokens = (s.mend (Mend.between faulty new hfresh hkeeps)).tokens := by
  have hs : s.tokens = s.lead.tokens ++ joinCells s.cells := rfl
  have hcells := h.filledFrom hfresh hkeeps hs
  rw [significant_run] at hcells
  rw [fillGaps_eq hnew h.nodup h.sub, hcells]
  rfl

theorem Sheet.Chosen.cellsHold (h : s.Chosen faulty chosen) {front : List Token} {cs : List Cell}
    (hs : s.tokens = front ++ joinCells cs) :
    (∀ g ∈ gapsFrom front.length cs, g ∉ chosen) ↔
      CellsHold (fun before run next => flawless faulty before run.tokens next)
        (significant front).reverse cs := by
  match cs with
  | [] => simp [gapsFrom, CellsHold]
  | [c] => simp [gapsFrom, CellsHold, flawless]
  | c :: d :: cs =>
    have hs' : s.tokens = (front ++ c.token :: c.run.tokens) ++ joinCells (d :: cs) := by
      rw [hs, joinCells_cons c, List.append_assoc, List.cons_append]
    have ih := Sheet.Chosen.cellsHold h hs'
    rw [length_append_cell, significant_append_cell] at ih
    rw [gapsFrom, List.forall_mem_cons, ih, h.mem_iff front c d cs hs, CellsHold, Bool.not_eq_true]
    rfl
termination_by cs.length

/-- No gap is chosen exactly if none is faulty. -/
theorem Sheet.Chosen.eq_nil_iff (h : s.Chosen faulty chosen) :
    chosen = [] ↔ s.Holds fun before run next => flawless faulty before run.tokens next := by
  have hs : s.tokens = s.lead.tokens ++ joinCells s.cells := rfl
  have hcells := h.cellsHold hs
  rw [significant_run, List.reverse_nil] at hcells
  rw [Sheet.Holds, ← hcells, List.eq_nil_iff_forall_not_mem]
  refine ⟨fun hnone => ⟨trivial, fun g _ => hnone g⟩, fun hnone g hg => ?_⟩
  exact hnone.2 g (h.sub g hg) hg

end

end LetScript
