import LetScript.Format
import LetScript.Proofs.Braces

/-! Formatted tokens pass the rules that they were formatted by. Each rule asks
something of every run, its fix brings that about, and no later fix undoes it. -/
namespace LetScript

/-! ### The rules as mends -/

namespace StyleRule

/-- Whether a rule is about trivia, so that it has a fix. -/
def isFixable : StyleRule → Bool
  | spaceBeforeColon | spaceAfterColon | oneSpaceAfterToken | spaceAroundEqual
  | spaceAroundOperator | newlineAfterSemicolon | newlineBeforePrintln _ | maxOneBlankLine
  | ifBraceSameLine => true
  | _ => false

/-- What the fix of a rule does to each run. -/
def mend : StyleRule → Mend
  | spaceBeforeColon => Padding.mend ⟨true, false⟩ Padding.colonBefore
  | spaceAfterColon => Padding.mend ⟨false, true⟩ Padding.colonAfter
  | oneSpaceAfterToken => Blank.spacesMend
  | spaceAroundEqual => Padding.mend ⟨true, true⟩ Padding.equalSign
  | spaceAroundOperator => Padding.mend ⟨true, true⟩ Padding.binaryOperator
  | newlineAfterSemicolon => Layout.statementsMend
  | newlineBeforePrintln n => Layout.printlnMend n
  | maxOneBlankLine => Blank.linesMend
  | ifBraceSameLine => Layout.bracesMend
  | _ => .nothing

/-- What a rule asks of each run. -/
def ok : StyleRule → List Token → List Token → Option Token → Prop
  | spaceBeforeColon => Padding.ok ⟨true, false⟩ Padding.colonBefore
  | spaceAfterColon => Padding.ok ⟨false, true⟩ Padding.colonAfter
  | oneSpaceAfterToken => fun before run _ => Blank.spacesOk before run
  | spaceAroundEqual => Padding.ok ⟨true, true⟩ Padding.equalSign
  | spaceAroundOperator => Padding.ok ⟨true, true⟩ Padding.binaryOperator
  | newlineAfterSemicolon => flawless Layout.statementFault
  | newlineBeforePrintln n => flawless (Layout.printlnFault n)
  | maxOneBlankLine => fun _ run _ => Blank.linesOk run
  | ifBraceSameLine => flawless Layout.braceFault
  | _ => fun _ _ _ => True

/-- Every run of a sheet is as a rule asks. -/
def Meets (r : StyleRule) (s : Sheet) : Prop :=
  s.Holds fun before run next => r.ok before run.tokens next

theorem fix_tokens (r : StyleRule) {s : Sheet} (hc : ∀ t ∈ s.tokens, t.Consistent) :
    r.fix s.tokens = (s.mend r.mend).tokens := by
  cases r with
  | spaceBeforeColon => exact Padding.fix_tokens Padding.quiet_colonBefore hc
  | spaceAfterColon => exact Padding.fix_tokens Padding.quiet_colonAfter hc
  | oneSpaceAfterToken => exact Blank.fixSpaces_tokens s
  | spaceAroundEqual => exact Padding.fix_tokens Padding.quiet_equalSign hc
  | spaceAroundOperator => exact Padding.fix_tokens Padding.quiet_binaryOperator hc
  | newlineAfterSemicolon => exact Layout.fixStatements_tokens s
  | newlineBeforePrintln n => exact Layout.fixPrintln_tokens hc
  | maxOneBlankLine => exact Blank.fixLines_tokens s
  | ifBraceSameLine => exact Layout.fixBraces_tokens s
  | _ => exact congrArg Sheet.tokens s.mend_nothing.symm

/-- A rule finds nothing exactly if every run is as it asks. -/
theorem remarks_tokens {r : StyleRule} (hr : r.isFixable) {s : Sheet}
    (hc : ∀ t ∈ s.tokens, t.Consistent) : r.remarks s.tokens = [] ↔ r.Meets s := by
  cases r with
  | spaceBeforeColon => exact Padding.check_tokens Padding.quiet_colonBefore hc
  | spaceAfterColon => exact Padding.check_tokens Padding.quiet_colonAfter hc
  | oneSpaceAfterToken => exact Blank.checkSpaces_tokens s
  | spaceAroundEqual => exact Padding.check_tokens Padding.quiet_equalSign hc
  | spaceAroundOperator => exact Padding.check_tokens Padding.quiet_binaryOperator hc
  | newlineAfterSemicolon => exact Layout.checkStatements_tokens s
  | newlineBeforePrintln n => exact Layout.checkPrintln_tokens hc
  | maxOneBlankLine => exact Blank.checkLines_tokens s
  | ifBraceSameLine => exact Layout.checkBraces_tokens s
  | _ => cases hr

/-- The fix of a rule brings about what the rule asks for. -/
theorem ok_mend (r : StyleRule) (before : List Token) (run : Run) (next : Option Token) :
    r.ok before (r.mend.apply before run.tokens next) next := by
  cases r with
  | spaceBeforeColon | spaceAfterColon | spaceAroundEqual | spaceAroundOperator =>
    exact Padding.ok_mend _ _ _ _ _
  | oneSpaceAfterToken => exact Blank.spacesOk_mend _ _ _
  | newlineAfterSemicolon =>
    simp only [ok, mend]
    obtain ⟨h, heq⟩ | ⟨u, us, v, rfl, rfl, -, heq⟩ :=
      Layout.statementsMend_filled before run.tokens next <;> rw [heq]
    · exact h
    · simp [flawless, Layout.statementFault, Token.lineBreak]
  | newlineBeforePrintln n =>
    simp only [ok, mend]
    obtain ⟨h, heq⟩ | ⟨u, us, v, rfl, rfl, h, heq⟩ :=
      Layout.printlnMend_filled n before run.tokens next <;> rw [heq]
    · exact h
    · obtain ⟨-, required, hr, -⟩ := Layout.printlnFault_iff.mp h
      rw [flawless, Bool.eq_false_iff, ne_eq, Layout.printlnFault_iff]
      simp [hr]
  | maxOneBlankLine =>
    have hbreaks := Blank.breaks_dropMarked 0 run
    simp only [ok, mend, Blank.linesOk, Blank.linesMend, hbreaks]
    omega
  | ifBraceSameLine =>
    simp only [ok, mend]
    obtain ⟨h, heq⟩ | ⟨u, us, v, rfl, rfl, -, heq⟩ :=
      Layout.bracesMend_filled before run.tokens next <;> rw [heq]
    · exact h
    · simp [flawless, Layout.braceFault, Token.space]
  | _ => trivial

/-! ### No later fix undoes an earlier one -/

/-- The fix of the second rule keeps what the first rule asks for. -/
def KeptBy (r r' : StyleRule) : Prop :=
  ∀ (before : List Token) (run : Run) (next : Option Token),
    Around Token.Consistent before run next → r.ok before run.tokens next →
      r.ok before (r'.mend.apply before run.tokens next) next

theorem keptBy_spaces (r : StyleRule) : oneSpaceAfterToken.KeptBy r := by
  intro before run next _ h
  have hblank := (r.mend.run before run next).blank
  simp only [Mend.run] at hblank
  simp only [ok] at h ⊢
  cases r with
  | spaceBeforeColon | spaceAfterColon | spaceAroundEqual | spaceAroundOperator =>
    exact Blank.spacesOk_padding h
  | oneSpaceAfterToken => exact Blank.spacesOk_mend _ _ _
  | newlineAfterSemicolon =>
    simp only [mend] at hblank ⊢
    obtain ⟨-, heq⟩ | ⟨u, us, v, -, -, -, heq⟩ :=
      Layout.statementsMend_filled before run.tokens next <;> rw [heq]
    · exact h
    · exact Blank.spacesOk_of_newline rfl (by simp)
  | newlineBeforePrintln n =>
    simp only [mend] at hblank ⊢
    obtain ⟨-, heq⟩ | ⟨u, us, v, -, -, -, heq⟩ :=
      Layout.printlnMend_filled n before run.tokens next <;> rw [heq] at hblank ⊢
    · exact h
    · obtain ⟨ts, hts⟩ := Layout.printlnRun_eq_cons n u run.tokens
      rw [hts] at hblank ⊢
      exact Blank.spacesOk_of_newline rfl fun t ht => hblank t (by simp [ht])
  | maxOneBlankLine => exact Blank.spacesOk_lines h
  | ifBraceSameLine =>
    simp only [mend]
    obtain ⟨-, heq⟩ | ⟨u, us, v, -, -, -, heq⟩ :=
      Layout.bracesMend_filled before run.tokens next <;> rw [heq]
    · exact h
    · exact Blank.spacesOk_space _ _
  | _ => exact h

theorem keptBy_statements {r : StyleRule} {b : Nat}
    (hr : r ∈ [newlineBeforePrintln b, maxOneBlankLine, ifBraceSameLine, printlnSimpleArgument,
      readInputSimpleArgument]) : newlineAfterSemicolon.KeptBy r := by
  intro before run next _ h
  simp only [List.mem_cons, List.not_mem_nil, or_false] at hr
  rcases hr with rfl | rfl | rfl | rfl | rfl
  · simp only [mend]
    obtain ⟨-, heq⟩ | ⟨u, us, v, rfl, rfl, hf, heq⟩ :=
      Layout.printlnMend_filled b before run.tokens next <;> rw [heq]
    · exact h
    · obtain ⟨-, n, hn, -⟩ := Layout.printlnFault_iff.mp hf
      have hpos := Layout.requiredBreaks_pos hn
      rw [ok, flawless, Bool.eq_false_iff, ne_eq, Layout.statementFault_iff,
        Layout.breaks_printlnRun, hn, Option.getD_some]
      omega
  · refine flawless_of_imp h fun u us v _ _ hf => ?_
    rw [Layout.statementFault_iff] at hf ⊢
    have hbreaks : _ = 0 := hf.2
    simp only [mend, Blank.linesMend, Blank.breaks_dropMarked] at hbreaks
    exact ⟨hf.1, by omega⟩
  · simp only [mend]
    obtain ⟨-, heq⟩ | ⟨u, us, v, rfl, rfl, hf, heq⟩ :=
      Layout.bracesMend_filled before run.tokens next <;> rw [heq]
    · exact h
    · have hkind := Layout.joined_kind (Bool.and_eq_true_iff.mp hf).1
      rw [ok, flawless, Bool.eq_false_iff, ne_eq, Layout.statementFault_iff]
      exact fun hsemi => hkind.1 hsemi.1
  · exact h
  · exact h

/-- With at most one blank line asked for, printing keeps within the limit. -/
theorem keptBy_println {r : StyleRule} {b : Nat} (hb : b ≤ Config.maxBlankLines)
    (hr : r ∈ [maxOneBlankLine, ifBraceSameLine, printlnSimpleArgument,
      readInputSimpleArgument]) : (newlineBeforePrintln b).KeptBy r := by
  intro before run next hc h
  simp only [List.mem_cons, List.not_mem_nil, or_false] at hr
  rcases hr with rfl | rfl | rfl | rfl
  · refine flawless_of_imp h fun u us v _ _ hf => ?_
    obtain ⟨hv, n, hn, hne⟩ := Layout.printlnFault_iff.mp hf
    -- the limit on blank lines leaves two line breaks, and no more are asked for
    have hle : n ≤ 2 := by
      have := Layout.requiredBreaks_le hn
      have : b ≤ 1 := hb
      omega
    simp only [mend, Blank.linesMend, Blank.breaks_dropMarked] at hne
    exact Layout.printlnFault_iff.mpr ⟨hv, n, hn, by omega⟩
  · simp only [mend]
    obtain ⟨-, heq⟩ | ⟨u, us, v, rfl, rfl, hf, heq⟩ :=
      Layout.bracesMend_filled before run.tokens next <;> rw [heq]
    · exact h
    · have hkind := Layout.joined_kind (Bool.and_eq_true_iff.mp hf).1
      have hv : v.Consistent := hc.2.2 v rfl
      rw [ok, flawless, Bool.eq_false_iff, ne_eq, Layout.printlnFault_iff]
      rintro ⟨hprint, -⟩
      obtain ⟨p, rfl⟩ := hv.eq_builtin (of_decide_eq_true hprint)
      simp at hkind
  · exact h
  · exact h

theorem keptBy_lines {r : StyleRule}
    (hr : r ∈ [ifBraceSameLine, printlnSimpleArgument, readInputSimpleArgument]) :
    maxOneBlankLine.KeptBy r := by
  intro before run next _ h
  simp only [List.mem_cons, List.not_mem_nil, or_false] at hr
  rcases hr with rfl | rfl | rfl
  · simp only [mend]
    obtain ⟨-, heq⟩ | ⟨u, us, v, rfl, rfl, -, heq⟩ :=
      Layout.bracesMend_filled before run.tokens next <;> rw [heq]
    · exact h
    · simp [ok, Blank.linesOk, Token.space]
  · exact h
  · exact h

/-- In the order in which the rules are applied, no fix undoes an earlier one. -/
theorem pairwise_keptBy {b : Nat} (hb : b ≤ Config.maxBlankLines) :
    (all b).Pairwise KeptBy := by
  have hnaming {r r' : StyleRule} (h : ∀ before run next, r.ok before run next) : r.KeptBy r' :=
    fun _ _ _ _ _ => h _ _ _
  have hpadding {r r' : StyleRule} {sides : Padding.Sides} {target : Padding.Target}
      (h : r.ok = Padding.ok sides target) : r.KeptBy r' := fun _ _ _ _ hok => by
    rw [h] at hok ⊢
    exact Padding.ok_of_keeps r'.mend hok
  have hargument {r r' : StyleRule} (hr : r' ∈ [printlnSimpleArgument, readInputSimpleArgument]) :
      r.KeptBy r' := fun _ _ _ _ hok => by
    simp only [List.mem_cons, List.not_mem_nil, or_false] at hr
    rcases hr with rfl | rfl <;> exact hok
  refine .cons (fun r' _ => hnaming fun _ _ _ => trivial) ?_
  refine .cons (fun r' _ => hnaming fun _ _ _ => trivial) ?_
  refine .cons (fun r' _ => hnaming fun _ _ _ => trivial) ?_
  refine .cons (fun r' _ => hpadding rfl) ?_
  refine .cons (fun r' _ => hpadding rfl) ?_
  refine .cons (fun r' _ => keptBy_spaces r') ?_
  refine .cons (fun r' _ => hpadding rfl) ?_
  refine .cons (fun r' _ => hpadding rfl) ?_
  refine .cons (fun r' hr => keptBy_statements hr) ?_
  refine .cons (fun r' hr => keptBy_println hb hr) ?_
  refine .cons (fun r' hr => keptBy_lines hr) ?_
  refine .cons (fun r' hr => hargument hr) ?_
  exact List.pairwise_pair.mpr (hargument (by simp))

end StyleRule

/-! ### Runs of fixes -/

/-- Mend a sheet by one rule after another. -/
def Sheet.mendAll (s : Sheet) (rs : List StyleRule) : Sheet :=
  rs.foldl (fun s r => s.mend r.mend) s

theorem Token.IsFresh.consistent {t : Token} (h : t.IsFresh) : t.Consistent := by
  obtain ⟨p, rfl | rfl⟩ := h <;> trivial

namespace Sheet

variable {s : Sheet}

@[simp] theorem mendAll_cons (r : StyleRule) (rs : List StyleRule) :
    s.mendAll (r :: rs) = (s.mend r.mend).mendAll rs := rfl

/-- The fixes of a list of rules mend the runs one after another. -/
theorem foldl_fix_tokens (rs : List StyleRule) (hc : ∀ t ∈ s.tokens, t.Consistent) :
    rs.foldl (fun ts r => r.fix ts) s.tokens = (s.mendAll rs).tokens := by
  induction rs generalizing s with
  | nil => rfl
  | cons r rs ih =>
    rw [List.foldl_cons, r.fix_tokens hc, mendAll_cons]
    exact ih (forall_mem_mend (fun _ ht => ht.consistent) hc)

/-- What every mend keeps a run of mends keeps. -/
theorem mendAll_induction {P : Sheet → Prop} (h : ∀ s (m : Mend), P s → P (s.mend m)) (hs : P s)
    (rs : List StyleRule) : P (s.mendAll rs) := by
  induction rs generalizing s with
  | nil => exact hs
  | cons r rs ih => exact ih (h s r.mend hs)

theorem consistent_mendAll (hc : ∀ t ∈ s.tokens, t.Consistent) (rs : List StyleRule) :
    ∀ t ∈ (s.mendAll rs).tokens, t.Consistent :=
  mendAll_induction (P := fun s => ∀ t ∈ s.tokens, t.Consistent)
    (fun _ _ => forall_mem_mend fun _ ht => ht.consistent) hc rs

end Sheet

namespace StyleRule

variable {s : Sheet}

theorem KeptBy.meets {r r' : StyleRule} (h : r.KeptBy r') (hc : ∀ t ∈ s.tokens, t.Consistent)
    (hm : r.Meets s) : r.Meets (s.mend r'.mend) :=
  ((s.holds_around hc).and hm).mend fun before run next hp => h before run next hp.1 hp.2

theorem meets_mend (r : StyleRule) (s : Sheet) : r.Meets (s.mend r.mend) :=
  (s.holds_around (p := fun _ => True) fun _ _ => trivial).mend
    fun before run next _ => r.ok_mend before run next

theorem Meets.mendAll {r : StyleRule} {rs : List StyleRule} (hrs : ∀ r' ∈ rs, r.KeptBy r')
    (hc : ∀ t ∈ s.tokens, t.Consistent) (hm : r.Meets s) : r.Meets (s.mendAll rs) := by
  induction rs generalizing s with
  | nil => exact hm
  | cons r' rs ih =>
    obtain ⟨hr', hrs⟩ := List.forall_mem_cons.mp hrs
    exact ih hrs (Sheet.forall_mem_mend (fun _ ht => ht.consistent) hc) (hr'.meets hc hm)

/-- After a run of fixes, each of which undoes no earlier one, all rules are met. -/
theorem meets_mendAll {rs : List StyleRule} (hrs : rs.Pairwise KeptBy)
    (hc : ∀ t ∈ s.tokens, t.Consistent) : ∀ r ∈ rs, r.Meets (s.mendAll rs) := by
  induction rs generalizing s with
  | nil => simp
  | cons r rs ih =>
    obtain ⟨hlater, hrs⟩ := List.pairwise_cons.mp hrs
    have hc' : ∀ t ∈ (s.mend r.mend).tokens, t.Consistent :=
      Sheet.forall_mem_mend (fun _ ht => ht.consistent) hc
    have hfirst := (r.meets_mend s).mendAll hlater hc'
    exact List.forall_mem_cons.mpr ⟨hfirst, ih hrs hc'⟩

end StyleRule

/-! ### Places do not matter -/

@[simp] theorem map_erase_placeFrom (p : Position) (ts : List Token) :
    (placeFrom p ts).map Token.erase = ts.map Token.erase := by
  induction ts generalizing p with
  | nil => rfl
  | cons t ts ih => simp [placeFrom, ih, Token.erase, Token.relocate]

theorem consistent_placeFrom {ts : List Token} (hc : ∀ t ∈ ts, t.Consistent) (p : Position) :
    ∀ t ∈ placeFrom p ts, t.Consistent := by
  have hmap : ∀ t ∈ ts.map Token.erase, t.Consistent := List.forall_mem_map.mpr hc
  rw [← map_erase_placeFrom p] at hmap
  exact (List.forall_mem_map (f := Token.erase)).mp hmap

theorem consistent_format {ts : List Token} (hc : ∀ t ∈ ts, t.Consistent) (rs : List StyleRule) :
    ∀ t ∈ format rs ts, t.Consistent := by
  obtain ⟨s, rfl⟩ := Sheet.exists_tokens_eq ts
  rw [format, Sheet.foldl_fix_tokens rs hc]
  exact consistent_placeFrom (Sheet.consistent_mendAll hc rs) .start

def Run.erase (r : Run) : Run :=
  ⟨r.tokens.map Token.erase, List.forall_mem_map.mpr r.blank⟩

def Cell.erase (c : Cell) : Cell := ⟨c.token.erase, c.solid, c.run.erase⟩

def Sheet.erase (s : Sheet) : Sheet := ⟨s.lead.erase, s.cells.map Cell.erase⟩

@[simp] theorem joinCells_erase (cs : List Cell) :
    joinCells (cs.map Cell.erase) = (joinCells cs).map Token.erase := by
  induction cs with
  | nil => rfl
  | cons c cs ih => simp [ih, Cell.erase, Run.erase]

@[simp] theorem Sheet.tokens_erase (s : Sheet) : s.erase.tokens = s.tokens.map Token.erase := by
  rw [tokens, tokens, List.map_append, ← joinCells_erase]
  rfl

@[simp] theorem nextToken_erase (cs : List Cell) :
    nextToken (cs.map Cell.erase) = (nextToken cs).map Token.erase := by
  cases cs <;> rfl

section
variable {P : List Token → Run → Option Token → Prop}
  (h : ∀ before run next, P (before.map Token.erase) (Run.erase run) (next.map Token.erase) ↔
    P before run next)
include h

@[simp] theorem cellsHold_erase (before : List Token) (cs : List Cell) :
    CellsHold P (before.map Token.erase) (cs.map Cell.erase) ↔ CellsHold P before cs := by
  induction cs generalizing before with
  | nil => rfl
  | cons c cs ih =>
    rw [List.map_cons, CellsHold, CellsHold, nextToken_erase]
    exact and_congr (h (c.token :: before) c.run _) (ih (c.token :: before))

@[simp] theorem Sheet.holds_erase (s : Sheet) : s.erase.Holds P ↔ s.Holds P := by
  rw [Holds, Holds, erase, nextToken_erase]
  exact and_congr (h [] s.lead _) (cellsHold_erase h [] s.cells)

end

theorem Padding.ok_erase {s : Sides} {target : Target}
    (hblind : ∀ prior t, target prior t.erase = target prior t) (before run : List Token)
    (next : Option Token) :
    ok s target (before.map Token.erase) (run.map Token.erase) (next.map Token.erase) ↔
      ok s target before run next := by
  have hwants : wants s target (before.map Token.erase) (next.map Token.erase) =
      wants s target before next := by
    cases before with
    | nil => rfl
    | cons u us =>
      cases next with
      | none => rfl
      | some v =>
        have hprior : (us.map Token.erase).head?.map Token.kind = us.head?.map Token.kind := by
          cases us <;> rfl
        simp only [List.map_cons, Option.map_some, wants, hprior, hblind _ u]
        rw [hblind]
        rfl
  rw [ok, ok, List.map_eq_nil_iff, hwants]

@[simp] theorem Blank.markSpaces_erase (b : Before) (run : List Token) :
    markSpaces b (run.map Token.erase) = (markSpaces b run).map fun m => (m.1.erase, m.2) := by
  induction run generalizing b with
  | nil => rfl
  | cons t run ih => exact congrArg _ (ih (b.next t.kind))

@[simp] theorem Blank.breaks_erase (run : List Token) :
    breaks (run.map Token.erase) = breaks run := by
  rw [breaks, List.countP_map]
  rfl

@[simp] theorem Layout.closesCondition_erase (us : List Token) :
    closesCondition (us.map Token.erase) = closesCondition us := by
  have hcut : LetScript.cutAtClose .closeParen .openParen 0 (us.map Token.erase) =
      (LetScript.cutAtClose .closeParen .openParen 0 us).map fun r =>
        (r.1.map Token.erase, r.2.map Token.erase) :=
    cutAtClose_relocate (g := fun _ => .start) _ _ 0 us
  rw [closesCondition, closesCondition, hcut]
  cases LetScript.cutAtClose .closeParen .openParen 0 us with
  | none => rfl
  | some r =>
    obtain ⟨inside, rest⟩ := r
    cases rest <;> rfl

@[simp] theorem Layout.joined_erase (before : List Token) (v : Token) :
    joined (before.map Token.erase) v.erase = joined before v := by
  cases before with
  | nil => rfl
  | cons u us =>
    rw [List.map_cons, joined, closesCondition_erase]
    rfl

theorem flawless_erase {faulty : List Token → List Token → Token → Bool}
    (h : ∀ u us run v, faulty ((u :: us).map Token.erase) (run.map Token.erase) v.erase =
      faulty (u :: us) run v) (before run : List Token) (next : Option Token) :
    flawless faulty (before.map Token.erase) (run.map Token.erase) (next.map Token.erase) ↔
      flawless faulty before run next := by
  cases before with
  | nil => rfl
  | cons u us =>
    cases next with
    | none => rfl
    | some v =>
      have := h u us run v
      simp only [List.map_cons, Option.map_some, flawless] at this ⊢
      rw [this]

namespace StyleRule

@[simp] theorem ok_erase (r : StyleRule) (before run : List Token) (next : Option Token) :
    r.ok (before.map Token.erase) (run.map Token.erase) (next.map Token.erase) ↔
      r.ok before run next := by
  cases r with
  | spaceBeforeColon | spaceAfterColon | spaceAroundEqual | spaceAroundOperator =>
    exact Padding.ok_erase (fun _ _ => rfl) before run next
  | oneSpaceAfterToken =>
    simp only [ok, Blank.spacesOk, Blank.markSpaces_erase, List.map_eq_nil_iff,
      List.forall_mem_map]
  | newlineAfterSemicolon =>
    refine flawless_erase (fun u us run v => ?_) before run next
    rw [Layout.statementFault, Blank.breaks_erase]
    rfl
  | newlineBeforePrintln n =>
    refine flawless_erase (fun u us run v => ?_) before run next
    rw [Layout.printlnFault, Blank.breaks_erase]
    rfl
  | maxOneBlankLine => simp only [ok, Blank.linesOk, Blank.breaks_erase]
  | ifBraceSameLine =>
    refine flawless_erase (fun u us run v => ?_) before run next
    rw [Layout.braceFault, Blank.breaks_erase, Layout.joined_erase, Layout.braceFault]
  | _ => rfl

/-- Whether a rule finds anything does not depend on places. -/
theorem remarks_erase {r : StyleRule} (hr : r.isFixable) {ts : List Token}
    (hc : ∀ t ∈ ts, t.Consistent) : r.remarks (ts.map Token.erase) = [] ↔ r.remarks ts = [] := by
  obtain ⟨s, rfl⟩ := Sheet.exists_tokens_eq ts
  have hc' : ∀ t ∈ s.erase.tokens, t.Consistent := by
    rw [s.tokens_erase]
    exact List.forall_mem_map.mpr hc
  rw [← s.tokens_erase, remarks_tokens hr hc', remarks_tokens hr hc]
  exact s.holds_erase fun before run next => r.ok_erase before run.tokens next

/-- A rule that fixes were made by finds nothing, if no later fix undoes it. -/
theorem remarks_format {rs : List StyleRule} (hrs : rs.Pairwise KeptBy) {ts : List Token}
    (hc : ∀ t ∈ ts, t.Consistent) {r : StyleRule} (hr : r ∈ rs) (hfix : r.isFixable) :
    r.remarks (format rs ts) = [] := by
  have hformat := consistent_format hc rs
  obtain ⟨s, rfl⟩ := Sheet.exists_tokens_eq ts
  have hmended := Sheet.consistent_mendAll hc rs
  rw [← remarks_erase hfix hformat, format, Sheet.foldl_fix_tokens rs hc, place,
    map_erase_placeFrom, remarks_erase hfix hmended, remarks_tokens hfix hmended]
  exact meets_mendAll hrs hc r hr

theorem ofName?_name {b : Nat} {r : StyleRule} (hr : r ∈ all b) : ofName? r.name b = some r := by
  simp only [all, List.mem_cons, List.not_mem_nil, or_false] at hr
  rcases hr with rfl | rfl | rfl | rfl | rfl | rfl | rfl | rfl | rfl | rfl | rfl | rfl | rfl |
    rfl <;> rfl

end StyleRule

/-- Whatever rules are named, formatted tokens pass those of them that can be
mended, and so linting by these finds nothing. -/
theorem format_passes (names : List String) (b : Nat) (hb : b ≤ Config.maxBlankLines)
    (ts : List Token) (hc : ∀ t ∈ ts, t.Consistent) :
    (∀ r ∈ StyleRule.all b, r.isFixable → r.name ∈ names →
      r.check (format (Config.rules ⟨names, b⟩) ts) = []) ∧
    firstFinding?
      (Config.rules ⟨names.filter fun n => (StyleRule.ofName? n b).any StyleRule.isFixable, b⟩)
      (format (Config.rules ⟨names, b⟩) ts) = none := by
  have hpair : (Config.rules ⟨names, b⟩).Pairwise StyleRule.KeptBy :=
    (StyleRule.pairwise_keptBy hb).sublist List.filter_sublist
  have hpass : ∀ r ∈ StyleRule.all b, r.isFixable → r.name ∈ names →
      r.check (format (Config.rules ⟨names, b⟩) ts) = [] := by
    intro r hr hfix hname
    have hrule : r ∈ Config.rules ⟨names, b⟩ :=
      List.mem_filter.mpr ⟨hr, List.contains_iff_mem.mpr hname⟩
    rw [StyleRule.check, StyleRule.remarks_format hpair hc hrule hfix, List.map_nil]
  refine ⟨hpass, List.findSome?_eq_none_iff.mpr fun r hr => ?_⟩
  obtain ⟨hall, hname⟩ := List.mem_filter.mp hr
  obtain ⟨hmem, hfix⟩ := List.mem_filter.mp (List.contains_iff_mem.mp hname)
  rw [StyleRule.ofName?_name hall, Option.any_some] at hfix
  rw [hpass r hall hfix hmem, List.head?_nil]

/-- A conditional written without a space and with its brace on a line of its own. -/
def cramped : List Token :=
  [.raw .ifWord "if" .start, .raw .openParen "(" .start, .boolean true .start,
    .raw .closeParen ")" .start, .lineBreak .start, .raw .openBrace "\x7b" .start,
    .identifier "x" .start, .operator .equal .start, .identifier "x" .start,
    .operator .sum .start, .operator .subtract .start, .identifier "y" .start,
    .raw .semicolon ";" .start, .builtin .println .start, .raw .openParen "(" .start,
    .identifier "x" .start, .raw .closeParen ")" .start, .raw .semicolon ";" .start,
    .raw .closeBrace "\x7d" .start]

theorem format_passes_cramped :
    let names := ["if-brace-same-line", "space-around-equal", "newline-before-println", "tabs",
      "space-around-operator", "snake-case", "newline-after-semicolon", "space-around-equal"]
    let fixable := names.filter fun n => (StyleRule.ofName? n 1).any StyleRule.isFixable
    1 ≤ Config.maxBlankLines ∧ (∀ t ∈ cramped, t.Consistent) ∧
      (findings (Config.rules ⟨fixable, 1⟩) cramped).length = 6 ∧
      firstFinding? (Config.rules ⟨fixable, 1⟩) (format (Config.rules ⟨names, 1⟩) cramped) =
        none := by
  refine ⟨by decide, by decide, by decide +kernel, ?_⟩
  exact (format_passes _ 1 (by decide) cramped (by decide)).2

end LetScript
