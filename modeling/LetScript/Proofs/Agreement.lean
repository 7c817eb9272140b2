import LetScript.Proofs.Masks
import LetScript.Proofs.Style

/-! What a rule finds and what its fix does agree. A run that is as the rule
asks is left alone, so the fix changes nothing exactly where nothing is found. -/
namespace LetScript

/-- Where a space is wanted there is one already. -/
theorem Padding.apply_of_ok {s : Sides} {target : Target} {before run : List Token}
    {next : Option Token} (h : ok s target before run next) :
    (mend s target).apply before run next = run := by
  simp only [mend]
  split
  · rw [h rfl]
    rfl
  · rfl

theorem Blank.dropMarked_of_forall {ms : List (Token × Bool)} (h : ∀ m ∈ ms, m.2 = false) :
    dropMarked ms = ms.map Prod.fst := by
  induction ms with
  | nil => rfl
  | cons m ms ih =>
    obtain ⟨hm, hms⟩ := List.forall_mem_cons.mp h
    obtain ⟨t, marked⟩ := m
    obtain rfl : marked = false := hm
    rw [dropMarked_cons, ih hms]
    rfl

theorem Blank.spaces_of_ok {before run : List Token} {next : Option Token}
    (h : spacesOk before run) : spacesMend.apply before run next = run := by
  by_cases hb : before = []
  · simp [spacesMend, hb]
  · have hmarks := h.resolve_left hb
    simp [spacesMend, hb, dropMarked_of_forall hmarks]

/-- Up to two line breaks, counted from the front of the run, nothing is dropped. -/
theorem Blank.markLines_of_le {count : Nat} {r : Run}
    (h : breaks r.tokens = 0 ∨ count + breaks r.tokens ≤ 2) :
    ∀ m ∈ markLines count r.tokens, m.2 = false := by
  obtain ⟨run, hrun⟩ := r
  induction run generalizing count with
  | nil => simp [markLines]
  | cons t run ih =>
    have h : breaks (t :: run) = 0 ∨ count + breaks (t :: run) ≤ 2 := h
    have hrest : breaks run = 0 ∨
        count + (if t.kind = .newline then 1 else 0) + breaks run ≤ 2 := by
      rw [breaks_cons] at h
      omega
    rw [markLines_cons count hrun, List.forall_mem_cons]
    refine ⟨?_, ih (fun u hu => hrun u (by simp [hu])) hrest⟩
    simp only [Bool.and_eq_false_iff, decide_eq_false_iff_not]
    omega

theorem Blank.lines_of_ok {run : Run} (h : linesOk run.tokens) (before : List Token)
    (next : Option Token) : linesMend.apply before run.tokens next = run.tokens := by
  have hle : breaks run.tokens = 0 ∨ 0 + breaks run.tokens ≤ 2 := by
    rw [linesOk] at h
    omega
  simp only [linesMend, dropMarked_of_forall (markLines_of_le hle), map_fst_markLines]

/-- A flawless gap is not filled. -/
theorem Filled.eq_of_flawless {faulty : List Token → List Token → Token → Bool}
    {new : Token → List Token → List Token} {before run out : List Token} {next : Option Token}
    (h : Filled faulty new before run next out) (hok : flawless faulty before run next) :
    out = run := by
  obtain ⟨-, rfl⟩ | ⟨u, us, v, rfl, rfl, hfault, -⟩ := h
  · rfl
  · have hfine : faulty (u :: us) run v = false := hok
    rw [hfine] at hfault
    cases hfault

/-- Mending a sheet gives its tokens back if every run stays. -/
theorem Sheet.Holds.tokens_mend {P : List Token → Run → Option Token → Prop} {s : Sheet} {m : Mend}
    (hp : s.Holds P)
    (h : ∀ before run next, P before run next → m.apply before run.tokens next = run.tokens) :
    (s.mend m).tokens = s.tokens := by
  have hcells {before : List Token} {cs : List Cell} (hcs : CellsHold P before cs) :
      joinCells (m.cells before cs) = joinCells cs := by
    induction cs generalizing before with
    | nil => rfl
    | cons c cs ih =>
      have hrun : (m.run (c.token :: before) c.run (nextToken cs)).tokens = c.run.tokens :=
        h _ _ _ hcs.1
      rw [Mend.joinCells_cells_cons, ih hcs.2, joinCells_cons, hrun]
  have hlead : (s.mend m).lead.tokens = s.lead.tokens := h _ _ _ hp.1
  rw [tokens, hlead, tokens]
  exact congrArg _ (hcells hp.2)

namespace StyleRule

/-- A run that is as a rule asks stays as it is. -/
theorem apply_of_ok (r : StyleRule) (before : List Token) (run : Run) (next : Option Token)
    (h : r.ok before run.tokens next) : r.mend.apply before run.tokens next = run.tokens := by
  cases r with
  | spaceBeforeColon | spaceAfterColon | spaceAroundEqual | spaceAroundOperator =>
    exact Padding.apply_of_ok h
  | oneSpaceAfterToken => exact Blank.spaces_of_ok h
  | newlineAfterSemicolon =>
    exact (Layout.statementsMend_filled before run.tokens next).eq_of_flawless h
  | newlineBeforePrintln n =>
    exact (Layout.printlnMend_filled n before run.tokens next).eq_of_flawless h
  | maxOneBlankLine => exact Blank.lines_of_ok h before next
  | ifBraceSameLine =>
    exact (Layout.bracesMend_filled before run.tokens next).eq_of_flawless h
  | _ => rfl

section
variable {r : StyleRule} {ts : List Token} (hc : ∀ t ∈ ts, t.Consistent)
include hc

theorem consistent_fix (r : StyleRule) : ∀ t ∈ r.fix ts, t.Consistent := by
  obtain ⟨s, rfl⟩ := Sheet.exists_tokens_eq ts
  rw [r.fix_tokens hc]
  exact Sheet.forall_mem_mend (fun _ ht => ht.consistent) hc

/-- After its fix a rule finds nothing. -/
theorem remarks_fix (hr : r.isFixable) : r.remarks (r.fix ts) = [] := by
  have hfix := consistent_fix hc r
  obtain ⟨s, rfl⟩ := Sheet.exists_tokens_eq ts
  rw [r.fix_tokens hc] at hfix ⊢
  exact (remarks_tokens hr hfix).mpr (r.meets_mend s)

/-- Where a rule finds nothing its fix changes nothing. -/
theorem fix_of_remarks_eq_nil (hr : r.isFixable) (h : r.remarks ts = []) : r.fix ts = ts := by
  obtain ⟨s, rfl⟩ := Sheet.exists_tokens_eq ts
  have hmeets : r.Meets s := (remarks_tokens hr hc).mp h
  rw [r.fix_tokens hc]
  exact hmeets.tokens_mend r.apply_of_ok

theorem remarks_eq_nil_iff (hr : r.isFixable) : r.remarks ts = [] ↔ r.fix ts = ts := by
  refine ⟨fix_of_remarks_eq_nil hc hr, fun h => ?_⟩
  rw [← h]
  exact remarks_fix hc hr

end

/-- The fix of a rule with every index checked on the list that it is used on. Rules on
names and on arguments change nothing and use no index. -/
def fixChecked : StyleRule → List Token → Except Nat (List Token)
  | camelCase => .ok
  | snakeCase => .ok
  | pascalCase => .ok
  | spaceBeforeColon => Padding.fixChecked ⟨true, false⟩ Padding.colonAt
  | spaceAfterColon => Padding.fixChecked ⟨false, true⟩ Padding.colonAt
  | oneSpaceAfterToken => Blank.fixSpacesChecked
  | spaceAroundEqual => Padding.fixChecked ⟨true, true⟩ Padding.equalSignAt
  | spaceAroundOperator => Padding.fixChecked ⟨true, true⟩ Padding.binaryOperatorAt
  | newlineAfterSemicolon => Layout.fixStatementsChecked
  | newlineBeforePrintln n => Layout.fixPrintlnChecked n
  | maxOneBlankLine => Blank.fixLinesChecked
  | ifBraceSameLine => Layout.fixBracesChecked
  | printlnSimpleArgument => .ok
  | readInputSimpleArgument => .ok

theorem fixChecked_eq_ok (r : StyleRule) {ts : List Token} (hc : ∀ t ∈ ts, t.Consistent) :
    r.fixChecked ts = .ok (r.fix ts) := by
  obtain ⟨s, rfl⟩ := Sheet.exists_tokens_eq ts
  cases r with
  | spaceBeforeColon => exact Padding.fixChecked_eq (Padding.finds_colon .missingSpaceBeforeColon) _
  | spaceAfterColon => exact Padding.fixChecked_eq (Padding.finds_colon .missingSpaceAfterColon) _
  | oneSpaceAfterToken => exact Blank.fixSpacesChecked_eq _
  | spaceAroundEqual => exact Padding.fixChecked_eq Padding.finds_equalSign _
  | spaceAroundOperator => exact Padding.fixChecked_eq Padding.finds_binaryOperator _
  | newlineAfterSemicolon => exact Layout.fixStatementsChecked_eq s
  | newlineBeforePrintln n => exact Layout.fixPrintlnChecked_eq hc n
  | maxOneBlankLine => exact Blank.fixLinesChecked_eq s
  | ifBraceSameLine => exact Layout.fixBracesChecked_eq s
  | camelCase | snakeCase | pascalCase | printlnSimpleArgument | readInputSimpleArgument => rfl

/-- The check and the fix of a rule agree. The fix uses no index out of range,
leaves nothing to find, and changes a list exactly where something is found. -/
theorem check_agrees_fix (r : StyleRule) (hr : r.isFixable) (ts : List Token)
    (hc : ∀ t ∈ ts, t.Consistent) :
    r.fixChecked ts = .ok (r.fix ts) ∧ r.check (r.fix ts) = [] ∧
      (r.check ts = [] ↔ r.fix ts = ts) := by
  simp only [check, List.map_eq_nil_iff]
  exact ⟨r.fixChecked_eq_ok hc, remarks_fix hc hr, remarks_eq_nil_iff hc hr⟩

theorem check_agrees_fix_cramped :
    let r := newlineBeforePrintln 7
    r.isFixable ∧ (∀ t ∈ cramped, t.Consistent) ∧ (r.check cramped).length = 1 ∧
      r.fixChecked cramped = .ok (r.fix cramped) ∧ r.check (r.fix cramped) = [] ∧
      r.fix cramped ≠ cramped := by
  have hc : ∀ t ∈ cramped, t.Consistent := by decide
  have hfound : ((newlineBeforePrintln 7).check cramped).length = 1 := by decide +kernel
  obtain ⟨hok, hpass, hiff⟩ := check_agrees_fix (newlineBeforePrintln 7) rfl cramped hc
  refine ⟨rfl, hc, hfound, hok, hpass, fun hsame => ?_⟩
  rw [hiff.mpr hsame] at hfound
  cases hfound

end StyleRule

end LetScript
