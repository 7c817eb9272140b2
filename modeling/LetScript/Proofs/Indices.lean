import LetScript.Proofs.Braces
import LetScript.Proofs.Reader

/-! Indices in range. The fixes of layout find gaps by their indices and fill one
after another while the list changes. Here they are run once more with every index
checked against the list that it is used on. No check fails, and the outcome is
the same. -/
namespace LetScript

/-! ### Checked reads -/

/-- What stands at an index. An index beyond the list is the error. -/
def readAt {α : Type} (xs : List α) (i : Nat) : Except Nat α :=
  match xs[i]? with
  | some x => .ok x
  | none => .error i

/-- Look for another index from an index of the list. -/
def searchAt (search : List Token → Nat → Option Nat) (ts : List Token) (i : Nat) :
    Except Nat (Option Nat) :=
  if i < ts.length then .ok (search ts i) else .error i

/-- Both sides of a gap are tokens of a list, the one before the other. -/
def Gap.Within (g : Gap) (ts : List Token) : Prop := g.start < g.stop ∧ g.stop < ts.length

instance (g : Gap) (ts : List Token) : Decidable (g.Within ts) :=
  inferInstanceAs (Decidable (_ ∧ _))

/-- Use a gap on a list that it lies in. -/
def Gap.checked {α : Type} (g : Gap) (use : List Token → α) (ts : List Token) : Except Nat α :=
  if g.Within ts then .ok (use ts) else .error g.stop

/-- A token with the place of the one before a gap. -/
def Gap.readPlace (new : Position → Token) (g : Gap) (ts : List Token) :
    Except Nat (List Token) := do
  return [new (← readAt ts g.start).position]

theorem readAt_eq {α : Type} {xs : List α} {i : Nat} {x : α} (h : xs[i]? = some x) :
    readAt xs i = .ok x := by
  rw [readAt, h]

@[simp] theorem readAt_append {α : Type} (front back : List α) (x : α) :
    readAt (front ++ x :: back) front.length = .ok x :=
  readAt_eq (by simp)

@[simp] theorem searchAt_eq {search : List Token → Nat → Option Nat} {ts : List Token} {i : Nat}
    (h : i < ts.length) : searchAt search ts i = .ok (search ts i) := if_pos h

@[simp] theorem Gap.Within.checked_eq {α : Type} {g : Gap} {ts : List Token} (h : g.Within ts)
    (use : List Token → α) : g.checked use ts = .ok (use ts) := if_pos h

theorem Gap.Within.readAt_start {g : Gap} {ts : List Token} (h : g.Within ts) :
    ∃ t, ts[g.start]? = some t ∧ readAt ts g.start = .ok t := by
  have hlt : g.start < ts.length := Nat.lt_trans h.1 h.2
  exact ⟨ts[g.start], List.getElem?_eq_getElem hlt, readAt_eq (List.getElem?_eq_getElem hlt)⟩

theorem Gap.Within.readPlace_eq {g : Gap} {ts : List Token} (h : g.Within ts)
    (new : Position → Token) : g.readPlace new ts = .ok [new (placeAt ts g.start)] := by
  obtain ⟨u, hu, hread⟩ := h.readAt_start
  rw [Gap.readPlace, hread, placeAt, hu]
  rfl

/-! ### Searches end in the list -/

theorem within_of_nextSignificant? {ts : List Token} {i j : Nat}
    (h : nextSignificant? ts i = some j) : Gap.Within ⟨i, j⟩ ts := by
  obtain ⟨k, hk, rfl⟩ := Option.map_eq_some_iff.mp h
  have hlt := (List.findIdx?_eq_some_iff_findIdx_eq.mp hk).1
  rw [List.length_drop] at hlt
  refine ⟨?_, ?_⟩ <;> simp only <;> omega

theorem within_of_prevSignificant? {ts : List Token} {i j : Nat}
    (h : prevSignificant? ts i = some j) (hi : i < ts.length) : Gap.Within ⟨j, i⟩ ts := by
  obtain ⟨k, hk, rfl⟩ := Option.map_eq_some_iff.mp h
  have hlt := (List.findIdx?_eq_some_iff_findIdx_eq.mp hk).1
  rw [List.length_reverse, List.length_take] at hlt
  refine ⟨?_, hi⟩
  simp only
  omega

theorem closeOffset?_lt {depth : Nat} {ts : List Token} {k : Nat}
    (h : closeOffset? depth ts = some k) : k < ts.length := by
  induction ts generalizing depth k with
  | nil => cases h
  | cons t ts ih =>
    have hmap {d : Nat} (h : (closeOffset? d ts).map (· + 1) = some k) : k < (t :: ts).length := by
      obtain ⟨j, hj, rfl⟩ := Option.map_eq_some_iff.mp h
      exact Nat.succ_lt_succ (ih hj)
    simp only [closeOffset?] at h
    split at h
    · exact hmap h
    · split at h
      · split at h
        · cases h
        · obtain rfl := Option.some.inj h
          exact Nat.succ_pos _
        · exact hmap h
      · exact hmap h

theorem closingParen?_lt {ts : List Token} {i j : Nat} (h : closingParen? ts i = some j) :
    j < ts.length := by
  obtain ⟨k, hk, rfl⟩ := Option.map_eq_some_iff.mp h
  have hlt := closeOffset?_lt hk
  rw [List.length_drop] at hlt
  omega

/-! ### Checked fillings -/

theorem filterMapM_eq_ok {ε α β : Type} {f : α → Except ε (Option β)} {g : α → Option β}
    {xs : List α} (h : ∀ x ∈ xs, f x = .ok (g x)) : xs.filterMapM f = .ok (xs.filterMap g) := by
  induction xs with
  | nil => rfl
  | cons x xs ih =>
    obtain ⟨hx, hxs⟩ := List.forall_mem_cons.mp h
    rw [List.filterMapM_cons, hx, ih hxs, List.filterMap_cons]
    cases g x <;> rfl

/-- Fill gaps from the last to the first, each of them checked on the list as it
is by then. -/
def fillChecked (new : Gap → List Token → Except Nat (List Token)) (gaps : List Gap)
    (ts : List Token) : Except Nat (List Token) :=
  (gaps.mergeSort Gap.le).foldrM
    (fun g ts => do g.checked (g.fill (← new g ts)) ts) ts

/-- Find the gap of each token, and fill all that are found. -/
def fixChecked (gapAt : List Token → Token → Nat → Except Nat (Option Gap))
    (new : Gap → List Token → Except Nat (List Token)) (ts : List Token) :
    Except Nat (List Token) := do
  fillChecked new (← ts.zipIdx.filterMapM fun (t, i) => gapAt ts t i) ts

section
variable {fill : Gap → List Token → List Token} {new : Token → List Token → List Token}
  {fillAt : Gap → List Token → Except Nat (List Token)}

theorem within_filledFrom (new : Token → List Token → List Token) (chosen : List Gap)
    (front : List Token) (c d : Cell) (cs : List Cell) (n : Nat) :
    Gap.Within ⟨front.length, front.length + 1 + c.run.tokens.length⟩
      (front ++ c.token :: (c.run.tokens ++ filledFrom chosen new n (d :: cs))) := by
  have hside : 0 < (filledFrom chosen new n (d :: cs)).length := by
    cases cs <;> exact Nat.succ_pos _
  refine ⟨?_, ?_⟩ <;> simp only [List.length_append, List.length_cons] <;> omega

/-- Every gap of a sheet still lies in the list when its turn comes: what was
filled before lies behind it, and its second side has stayed. -/
theorem foldrM_fill (hnew : FillsBy fill new)
    (hfill : ∀ g ts, g.Within ts → fillAt g ts = .ok (fill g ts)) (chosen : List Gap)
    (front : List Token) (cs : List Cell) :
    ((gapsFrom front.length cs).filter (· ∈ chosen)).foldrM
      (fun g ts => do g.checked (g.fill (← fillAt g ts)) ts) (front ++ joinCells cs) =
        .ok (front ++ filledFrom chosen new front.length cs) := by
  match cs with
  | [] => rfl
  | [c] => simp [gapsFrom, filledFrom, Cell.tokens]
  | c :: d :: cs =>
    have ih := foldrM_fill hnew hfill chosen (front ++ c.token :: c.run.tokens) (d :: cs)
    simp only [length_append_cell, List.append_assoc, List.cons_append] at ih
    have hwithin := within_filledFrom new chosen front c d cs
      (front.length + 1 + c.run.tokens.length)
    rw [gapsFrom, joinCells_cons c, filledFrom, List.filter_cons]
    split
    · rename_i hg
      rw [List.foldrM_cons, ih]
      simp only [ok_bind, hfill _ _ hwithin, hwithin.checked_eq]
      rw [hnew, fill_append, if_pos (of_decide_eq_true hg)]
    · rename_i hg
      rw [ih, if_neg fun h => hg (decide_eq_true h)]
termination_by cs.length

/-- Where the gaps found are gaps of a sheet, no index is out of range. -/
theorem fixChecked_eq {s : Sheet} {faulty : List Token → List Token → Token → Bool}
    {gap : Token × Nat → Option Gap}
    {gapAt : List Token → Token → Nat → Except Nat (Option Gap)}
    (hchosen : s.Chosen faulty (s.tokens.zipIdx.filterMap gap)) (hnew : FillsBy fill new)
    (hgap : ∀ t i, s.tokens[i]? = some t → gapAt s.tokens t i = .ok (gap (t, i)))
    (hfill : ∀ g ts, g.Within ts → fillAt g ts = .ok (fill g ts)) :
    fixChecked gapAt fillAt s.tokens =
      .ok (fillGaps fill (s.tokens.zipIdx.filterMap gap) s.tokens) := by
  have hgaps : (s.tokens.zipIdx.filterMapM fun (t, i) => gapAt s.tokens t i) =
      .ok (s.tokens.zipIdx.filterMap gap) :=
    filterMapM_eq_ok fun (t, i) h => hgap t i (List.mk_mem_zipIdx_iff_getElem?.mp h)
  rw [fixChecked, hgaps, fillGaps_eq hnew hchosen.nodup hchosen.sub]
  simp only [ok_bind, fillChecked]
  rw [Sheet.mergeSort_gaps hchosen.nodup hchosen.sub, Sheet.gaps, Sheet.tokens]
  exact foldrM_fill hnew hfill _ _ _

end

/-! ### The rules of layout -/

namespace Layout

def statementGapAt (ts : List Token) (t : Token) (i : Nat) : Except Nat (Option Gap) := do
  if t.kind = .semicolon then
    match ← searchAt nextSignificant? ts i with
    | none => return none
    | some next =>
      let g : Gap := ⟨i, next⟩
      return if (← g.checked g.breaks ts) = 0 then some g else none
  else return none

def fixStatementsChecked : List Token → Except Nat (List Token) :=
  fixChecked statementGapAt (Gap.readPlace .lineBreak)

def printlnGapAt (blankLines : Nat) (ts : List Token) (t : Token) (i : Nat) :
    Except Nat (Option Gap) := do
  if t.isBuiltin .println then
    match ← searchAt prevSignificant? ts i with
    | none => return none
    | some prev =>
      let g : Gap := ⟨prev, i⟩
      match requiredBreaks blankLines (← readAt ts prev).kind with
      | none => return none
      | some required => return if (← g.checked g.breaks ts) = required then none else some g
  else return none

def printlnTriviaAt (blankLines : Nat) (g : Gap) (ts : List Token) :
    Except Nat (List Token) := do
  let u ← readAt ts g.start
  let count := (requiredBreaks blankLines u.kind).getD 1
  return List.replicate count (.lineBreak u.position) ++ indentation (← g.checked g.inside ts)

def fixPrintlnChecked (blankLines : Nat) : List Token → Except Nat (List Token) :=
  fixChecked (printlnGapAt blankLines) (printlnTriviaAt blankLines)

/-- The gap from an index to the next significant token, if that is of a kind. -/
def gapTo (ts : List Token) (i : Nat) (k : Kind) : Except Nat (Option Gap) := do
  match ← searchAt nextSignificant? ts i with
  | none => return none
  | some next => return if (← readAt ts next).kind = k then some ⟨i, next⟩ else none

def braceGapAt (ts : List Token) (t : Token) (i : Nat) : Except Nat (Option Gap) := do
  match t.kind with
  | .ifWord =>
    match ← gapTo ts i .openParen with
    | none => return none
    | some g =>
      match ← searchAt closingParen? ts g.stop with
      | none => return none
      | some closing => gapTo ts closing .openBrace
  | .closeBrace => gapTo ts i .elseWord
  | .elseWord => gapTo ts i .openBrace
  | _ => return none

def brokenGapAt (ts : List Token) (t : Token) (i : Nat) : Except Nat (Option Gap) := do
  match ← braceGapAt ts t i with
  | none => return none
  | some g => return if (← g.checked g.breaks ts) = 0 then none else some g

def fixBracesChecked : List Token → Except Nat (List Token) :=
  fixChecked brokenGapAt (Gap.readPlace .space)

theorem gapTo_eq {ts : List Token} {i : Nat} (hi : i < ts.length) (k : Kind) :
    gapTo ts i k = .ok (((nextSignificant? ts i).filter (kindIs ts · k)).map (⟨i, ·⟩)) := by
  rw [gapTo, searchAt_eq hi]
  cases h : nextSignificant? ts i with
  | none => rfl
  | some next =>
    obtain ⟨u, hu⟩ : ∃ u, ts[next]? = some u :=
      ⟨_, List.getElem?_eq_getElem (within_of_nextSignificant? h).2⟩
    by_cases hk : u.kind = k <;>
      simp [readAt_eq hu, kindIs, hu, hk, Option.filter]

section
variable {ts : List Token} {t : Token} {i : Nat} (ht : ts[i]? = some t)
include ht

theorem statementGapAt_eq : statementGapAt ts t i = .ok
    (if t.kind = .semicolon then
      (nextSignificant? ts i).bind fun next =>
        if Gap.breaks ⟨i, next⟩ ts = 0 then some (⟨i, next⟩ : Gap) else none
      else none) := by
  have hi := (List.getElem?_eq_some_iff.mp ht).1
  rw [statementGapAt]
  split
  · rw [searchAt_eq hi]
    cases h : nextSignificant? ts i with
    | none => rfl
    | some next =>
      simp [(within_of_nextSignificant? h).checked_eq]
  · rfl

theorem printlnGapAt_eq (blankLines : Nat) : printlnGapAt blankLines ts t i = .ok
    (if t.isBuiltin .println then
      (prevSignificant? ts i).bind fun prev =>
        (requiredAt blankLines ts prev).bind fun required =>
          if Gap.breaks ⟨prev, i⟩ ts = required then none else some (⟨prev, i⟩ : Gap)
      else none) := by
  have hi := (List.getElem?_eq_some_iff.mp ht).1
  rw [printlnGapAt]
  split
  · rw [searchAt_eq hi]
    cases h : prevSignificant? ts i with
    | none => rfl
    | some prev =>
      have hwithin := within_of_prevSignificant? h hi
      obtain ⟨u, hu, hread⟩ := hwithin.readAt_start
      simp only [ok_bind, hread, requiredAt, hu, Option.bind]
      cases requiredBreaks blankLines u.kind with
      | none => rfl
      | some required => simp [hwithin]
  · rfl

theorem braceGapAt_eq : braceGapAt ts t i = .ok (braceGap? ts t i) := by
  have hi := (List.getElem?_eq_some_iff.mp ht).1
  rw [braceGapAt, braceGap?]
  cases t.kind
  case ifWord =>
    simp only [gapTo_eq hi]
    cases h : (nextSignificant? ts i).filter (kindIs ts · .openParen) with
    | none => rfl
    | some opening =>
      have ho := within_of_nextSignificant? (Option.filter_eq_some_iff.mp h).1
      simp only [Option.map_some, ok_bind, searchAt_eq ho.2, Option.bind_eq_bind, Option.bind_some]
      cases hc : closingParen? ts opening with
      | none => rfl
      | some closing =>
        simp only [gapTo_eq (closingParen?_lt hc), Option.bind_some, Option.map_eq_bind]
        rfl
  case closeBrace => simp only [gapTo_eq hi, Option.map_eq_bind]; rfl
  case elseWord => simp only [gapTo_eq hi, Option.map_eq_bind]; rfl
  all_goals rfl

theorem brokenGapAt_eq :
    brokenGapAt ts t i = .ok ((braceGap? ts t i).filter fun g => g.breaks ts ≠ 0) := by
  rw [brokenGapAt, braceGapAt_eq ht]
  cases h : braceGap? ts t i with
  | none => rfl
  | some g =>
    have hg : g.Within ts := by
      cases braceGap?_eq_some_iff.mp h <;> exact within_of_nextSignificant? ‹_›
    by_cases hb : g.breaks ts = 0 <;> simp [hg, hb, Option.filter]

end

theorem fixStatementsChecked_eq (s : Sheet) :
    fixStatementsChecked s.tokens = .ok (fixStatements s.tokens) :=
  fixChecked_eq (statementGaps_chosen s) (fillsBy_placeAt .lineBreak)
    (fun _ _ ht => statementGapAt_eq ht) (fun _ _ hg => hg.readPlace_eq .lineBreak)

theorem printlnTriviaAt_eq (blankLines : Nat) {g : Gap} {ts : List Token} (hg : g.Within ts) :
    printlnTriviaAt blankLines g ts = .ok (printlnTrivia blankLines g ts) := by
  obtain ⟨u, hu, hread⟩ := hg.readAt_start
  rw [printlnTriviaAt, hread, printlnTrivia, requiredAt, placeAt, hu]
  simp only [ok_bind, hg.checked_eq]
  rfl

theorem fixPrintlnChecked_eq {s : Sheet} (hc : ∀ t ∈ s.tokens, t.Consistent) (blankLines : Nat) :
    fixPrintlnChecked blankLines s.tokens = .ok (fixPrintln blankLines s.tokens) :=
  fixChecked_eq (printlnGaps_chosen hc) (fillsBy_printlnTrivia blankLines)
    (fun _ _ ht => printlnGapAt_eq ht blankLines) (fun _ _ => printlnTriviaAt_eq blankLines)

theorem fixBracesChecked_eq (s : Sheet) :
    fixBracesChecked s.tokens = .ok (fixBraces s.tokens) :=
  fixChecked_eq (braceGaps_chosen s) (fillsBy_placeAt .space)
    (fun _ _ ht => brokenGapAt_eq ht) (fun _ _ hg => hg.readPlace_eq .space)

end Layout

end LetScript
