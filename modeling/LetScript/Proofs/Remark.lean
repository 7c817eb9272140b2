import LetScript.Proofs.Calls
import LetScript.Proofs.Sign
import LetScript.Format

/-! What the rules of style remark on. Each remark stands at a token of the list, and at one
that the violation is about where it stands. -/
namespace LetScript

/-- Whether a violation is about a token, with these tokens in front of it and behind it. -/
def Violation.Concerns (front : List Token) (t : Token) (back : List Token) : Violation → Prop
  | notCamelCase name _ =>
    t.kind = .identifier ∧ t.value = .raw name ∧ ¬ Naming.isCamelCase name.toList
  | notSnakeCase name _ =>
    t.kind = .identifier ∧ t.value = .raw name ∧ ¬ Naming.isSnakeCase name.toList
  | notPascalCase name _ =>
    t.kind = .identifier ∧ t.value = .raw name ∧ ¬ Naming.isPascalCase name.toList
  | missingSpaceBeforeColon => t.kind = .colon ∧ Padding.touches front.getLast?
  | missingSpaceAfterColon => t.kind = .colon ∧ Padding.touches back.head?
  | repeatedSpace =>
    t.kind = .whitespace ∧ (front.getLast?.any fun u => u.kind = .whitespace) ∧
      (front.filter fun u => u.kind ≠ .whitespace).getLast?.any fun u => u.kind ≠ .newline
  | missingSpaceAroundEqual =>
    t.isOperator .equal ∧ (Padding.touches front.getLast? ∨ Padding.touches back.head?)
  | missingSpaceAroundOperator o =>
    t.isOperator o ∧ ((significant front).getLast?.any fun u => Padding.endsOperand u.kind) ∧
      (Padding.touches front.getLast? ∨ Padding.touches back.head?)
  | missingNewlineAfterStatement =>
    t.kind = .semicolon ∧ ∃ run v rest, back = run ++ v :: rest ∧ (∀ u ∈ run, u.isTrivia) ∧
      v.isTrivia = false ∧ Blank.breaks run = 0
  | printlnSpacing n =>
    t.isBuiltin .println ∧ ∃ before u run, front = before ++ u :: run ∧
      (u.kind = .semicolon ∨ u.kind = .closeBrace ∨ u.kind = .openBrace ∧ n = 0) ∧
      (∀ u ∈ run, u.isTrivia) ∧ Blank.breaks run ≠ n + 1
  | tooManyBlankLines =>
    t.kind = .newline ∧ ∃ before run, front = before ++ run ∧ (∀ u ∈ run, u.isTrivia) ∧
      2 ≤ Blank.breaks run
  | braceOnNewLine =>
    ∃ before u run i, front = before ++ u :: run ∧ Layout.Owner before u t i ∧
      (∀ u ∈ run, u.isTrivia) ∧ Blank.breaks run ≠ 0
  | complexArgument f =>
    t.isBuiltin f ∧ ∃ gap o inside q rest, back = gap ++ o :: (inside ++ q :: rest) ∧
      (∀ u ∈ gap, u.isTrivia) ∧ o.kind = .openParen ∧ q.kind = .closeParen ∧
      Balanced .openParen .closeParen inside ∧ isSingle (significant inside) = false

/-- The remark stands at a token of the list that its violation is about. -/
def Remark.Names (m : Remark) (ts : List Token) : Prop :=
  ∃ front t back, ts = front ++ t :: back ∧ m.position = t.position ∧
    m.violation.Concerns front t back

theorem Naming.names_of_check {accepts : List Char → Bool} {violation : String → Violation}
    (hv : ∀ s front t back, t.kind = .identifier → t.value = .raw s → ¬ accepts s.toList →
      (violation s).Concerns front t back)
    {ts : List Token} {m : Remark} (hm : m ∈ Naming.check accepts violation ts) : m.Names ts := by
  obtain ⟨t, ht, hremark⟩ := List.mem_filterMap.mp hm
  obtain ⟨front, back, rfl⟩ := List.append_of_mem ht
  split at hremark
  · rename_i s hk hvalue
    split at hremark
    · exact nomatch hremark
    · rename_i haccepts
      cases hremark
      exact ⟨front, t, back, rfl, rfl, hv s front t back hk hvalue haccepts⟩
  · exact nomatch hremark

namespace Padding

variable {target : Target}

/-- The remark is about a marked token without a space where one is wanted. -/
def Lacks (s : Sides) (before : Option Token) (ms : List Marked) (m : Remark) : Prop :=
  ∃ xs k ys, ms = xs ++ k :: ys ∧ k.violation = some m.violation ∧
    m.position = k.token.position ∧
    (s.before ∧ touches (before.toList ++ xs.map Marked.token).getLast? ∨
      s.after ∧ touches (ys.map Marked.token).head?)

theorem Lacks.cons {s : Sides} {k : Marked} {ms : List Marked} {m : Remark}
    (h : Lacks s (some k.token) ms m) (before : Option Token) : Lacks s before (k :: ms) m := by
  obtain ⟨xs, k', ys, rfl, hviolation, hposition, htight⟩ := h
  refine ⟨k :: xs, k', ys, rfl, hviolation, hposition, ?_⟩
  rwa [List.map_cons, List.getLast?_append_cons]

theorem lacks_of_mem {s : Sides} {before : Option Token} {ms : List Marked} {m : Remark}
    (hm : m ∈ unpaddedFrom s before ms) : Lacks s before ms m := by
  induction ms generalizing before with
  | nil => exact nomatch hm
  | cons k ms ih =>
    rw [unpaddedFrom] at hm
    split at hm
    · rename_i v hv
      split at hm
      · rename_i htight
        rcases List.mem_cons.mp hm with rfl | hm
        · refine ⟨[], k, ms, rfl, hv, rfl, ?_⟩
          cases before <;> simpa using htight
        · exact (ih hm).cons before
      · exact (ih hm).cons before
    · exact (ih hm).cons before

@[simp] theorem map_token_markFrom (target : Target) (prior : Option Kind) (ts : List Token) :
    (markFrom target prior ts).map Marked.token = ts := by
  induction ts generalizing prior with
  | nil => rfl
  | cons t ts ih => rw [markFrom, List.map_cons, ih]

theorem violation_of_markFrom {prior : Option Kind} {ts : List Token} {xs ys : List Marked}
    {k : Marked} (h : markFrom target prior ts = xs ++ k :: ys) :
    k.violation = target (lastKind prior (significant (xs.map Marked.token))) k.token := by
  induction ts generalizing prior xs with
  | nil => exact absurd h (by simp [markFrom])
  | cons t ts ih =>
    cases xs with
    | nil =>
      obtain ⟨rfl, -⟩ := List.cons.inj h
      rfl
    | cons x xs =>
      obtain ⟨rfl, hrest⟩ := List.cons.inj h
      rw [ih hrest]
      by_cases ht : t.isTrivia <;> simp [significant, ht, lastKind]

theorem names_of_check {s : Sides}
    (hv : ∀ front t back v, target (lastKind none (significant front)) t = some v →
      (s.before ∧ touches front.getLast? ∨ s.after ∧ touches back.head?) →
      v.Concerns front t back)
    {ts : List Token} {m : Remark} (hm : m ∈ check s target ts) : m.Names ts := by
  obtain ⟨xs, k, ys, hms, hviolation, hposition, htight⟩ := lacks_of_mem hm
  have hts : ts = xs.map Marked.token ++ k.token :: ys.map Marked.token := by
    rw [← List.map_cons, ← List.map_append, ← hms, mark, map_token_markFrom]
  rw [violation_of_markFrom hms] at hviolation
  exact ⟨_, k.token, _, hts, hposition, hv _ _ _ _ hviolation htight⟩

theorem concerns_of_binaryOperator {front back : List Token} {t : Token} {v : Violation}
    (h : binaryOperator (lastKind none (significant front)) t = some v)
    (htight : touches front.getLast? ∨ touches back.head?) : v.Concerns front t back := by
  unfold binaryOperator at h
  split at h
  · rename_i o ho
    obtain ⟨hbinary, hv⟩ := Option.ite_none_right_eq_some.mp h
    rw [Bool.and_eq_true, lastKind_none, Option.any_map] at hbinary
    cases hv
    exact ⟨decide_eq_true ho, hbinary.2, htight⟩
  · exact nomatch h

end Padding

namespace Blank

theorem exists_of_markSpaces {b : Before} {ts : List Token} {t : Token}
    (h : (t, true) ∈ markSpaces b ts) :
    ∃ front back, ts = front ++ t :: back ∧ b.after front = .space ∧ t.kind = .whitespace := by
  induction ts generalizing b with
  | nil => exact nomatch h
  | cons u ts ih =>
    rcases List.mem_cons.mp h with h | h
    · obtain ⟨rfl, hmarked⟩ := Prod.mk.inj h
      simp only [Bool.true_eq, Bool.and_eq_true, decide_eq_true_eq] at hmarked
      exact ⟨[], ts, rfl, hmarked.1, hmarked.2⟩
    · obtain ⟨front, back, rfl, hspace, hk⟩ := ih h
      exact ⟨u :: front, back, rfl, hspace, hk⟩

/-- Behind a space there is a blank, and something else on the line in front of it. -/
theorem Before.of_after_eq_space {front : List Token} (h : Before.lineStart.after front = .space) :
    (front.getLast?.any fun u => u.kind = .whitespace) ∧
      (front.filter fun u => u.kind ≠ .whitespace).getLast?.any fun u => u.kind ≠ .newline := by
  refine ⟨?_, (Before.after_lineStart front).mp (by simp [h])⟩
  cases hlast : front.getLast? with
  | none =>
    rw [List.getLast?_eq_none_iff.mp hlast] at h
    cases h
  | some u =>
    obtain ⟨us, rfl⟩ := List.getLast?_eq_some_iff.mp hlast
    rw [Before.after_append, Before.after_singleton_eq_space] at h
    exact decide_eq_true h.1

theorem names_of_checkSpaces {ts : List Token} {m : Remark} (hm : m ∈ checkSpaces ts) :
    m.Names ts := by
  obtain ⟨⟨t, marked⟩, ht, hm⟩ := List.mem_filterMap.mp hm
  obtain ⟨rfl, hm⟩ := Option.ite_none_right_eq_some.mp hm
  cases hm
  obtain ⟨front, back, rfl, hspace, hk⟩ := exists_of_markSpaces ht
  exact ⟨front, t, back, rfl, rfl, hk, Before.of_after_eq_space hspace⟩

/-- A marked token stands in a run of trivia, behind two line breaks of the run. -/
theorem exists_of_markLines (before : List Token) {run ts : List Token} {t : Token}
    (hrun : ∀ u ∈ run, u.isTrivia) (h : (t, true) ∈ markLines (breaks run) ts) :
    ∃ before' run' back, before ++ run ++ ts = before' ++ run' ++ t :: back ∧
      (∀ u ∈ run', u.isTrivia) ∧ 2 ≤ breaks run' := by
  induction ts generalizing before run with
  | nil => exact nomatch h
  | cons u ts ih =>
    rcases List.mem_cons.mp h with h | h
    · obtain ⟨rfl, hmarked⟩ := Prod.mk.inj h
      simp only [Bool.true_eq, Bool.and_eq_true, decide_eq_true_eq] at hmarked
      exact ⟨before, run, ts, rfl, hrun, hmarked.1⟩
    · by_cases hu : u.isTrivia
      · have hpassed : breaks (run ++ [u]) =
            if u.kind = .newline then breaks run + 1 else if u.isTrivia then breaks run else 0 := by
          by_cases hk : u.kind = .newline <;> simp [breaks, hk, hu]
        rw [← hpassed] at h
        simpa using ih before (by simpa [or_imp, forall_and, hu] using hrun) h
      · have hk : u.kind ≠ .newline := fun hk => hu (by rw [Token.isTrivia, hk]; rfl)
        simp only [hk, hu, if_false] at h
        simpa using ih (before ++ run ++ [u]) (List.forall_mem_nil _) h

theorem names_of_checkLines {ts : List Token} {m : Remark} (hm : m ∈ checkLines ts) :
    m.Names ts := by
  obtain ⟨⟨t, marked⟩, ht, hm⟩ := List.mem_filterMap.mp hm
  obtain ⟨hmarked, hm⟩ := Option.ite_none_right_eq_some.mp hm
  cases hm
  rw [Bool.and_eq_true, decide_eq_true_eq] at hmarked
  obtain ⟨rfl, hk⟩ := hmarked
  obtain ⟨before, run, back, rfl, hrun, hbreaks⟩ :=
    exists_of_markLines [] (List.forall_mem_nil _) ht
  exact ⟨before ++ run, t, back, rfl, rfl, hk, before, run, rfl, hrun, hbreaks⟩

end Blank

namespace Layout

theorem placeAt_of_getElem? {ts : List Token} {i : Nat} {t : Token} (h : ts[i]? = some t) :
    placeAt ts i = t.position := by
  simp [placeAt, h]

theorem names_of_checkStatements {ts : List Token} {m : Remark} (hm : m ∈ checkStatements ts) :
    m.Names ts := by
  obtain ⟨⟨i, j⟩, hg, rfl⟩ := List.mem_map.mp hm
  obtain ⟨t, ht, hk, hnext, hbreaks⟩ := mem_statementGaps.mp hg
  obtain ⟨front, run, v, back, rfl, hrun, hv, rfl, rfl⟩ := nextSignificant?_eq_some hnext ht
  rw [breaks_between] at hbreaks
  exact ⟨front, t, run ++ v :: back, rfl, placeAt_of_getElem? ht, hk, run, v, back, rfl, hrun, hv,
    hbreaks⟩

theorem kind_of_requiredBreaks {blankLines : Nat} {k : Kind} {n : Nat}
    (h : requiredBreaks blankLines k = some n) :
    k = .semicolon ∨ k = .closeBrace ∨ k = .openBrace ∧ n = 1 := by
  unfold requiredBreaks at h
  split at h <;> simp_all

theorem names_of_checkPrintln {blankLines : Nat} {ts : List Token} {m : Remark}
    (hm : m ∈ checkPrintln blankLines ts) : m.Names ts := by
  obtain ⟨⟨i, j⟩, hg, hm⟩ := List.mem_filterMap.mp hm
  obtain ⟨required, hrequired, rfl⟩ := Option.map_eq_some_iff.mp hm
  obtain ⟨t, ht, hf, hprev, n, hn, hbreaks⟩ := mem_printlnGaps.mp hg
  obtain rfl := Option.some.inj (hrequired.symm.trans hn)
  obtain ⟨front, u, run, back, rfl, hrun, hu, rfl, rfl⟩ := prevSignificant?_eq_some hprev ht
  rw [requiredAt_append] at hn
  rw [breaks_between] at hbreaks
  have hpos := requiredBreaks_pos hn
  refine ⟨front ++ u :: run, t, back, by simp, placeAt_of_getElem? ht, hf, front, u, run, rfl, ?_,
    hrun, ?_⟩
  · rcases kind_of_requiredBreaks hn with hk | hk | ⟨hk, rfl⟩
    · exact .inl hk
    · exact .inr (.inl hk)
    · exact .inr (.inr ⟨hk, rfl⟩)
  · omega

theorem names_of_checkBraces {ts : List Token} {m : Remark} (hm : m ∈ checkBraces ts) :
    m.Names ts := by
  obtain ⟨g, hg, rfl⟩ := List.mem_map.mp hm
  obtain ⟨⟨t, i, ht, hgap⟩, hbreaks⟩ := mem_braceGaps.mp hg
  obtain ⟨front, u, run, v, back, rfl, hrun, -, rfl, howner⟩ := hgap.owner ht
  rw [breaks_between] at hbreaks
  exact ⟨front ++ u :: run, v, back, by simp,
    placeAt_of_getElem? (getElem?_append_run front run back u v), front, u, run, i, rfl, howner,
    hrun, hbreaks⟩

end Layout

namespace Argument

/-- A call that is not simple has parentheses with something else between them than a single
name or literal. -/
theorem exists_of_isSimple {ts : List Token} {i : Nat} {t : Token} (ht : ts[i]? = some t)
    (h : isSimple ts i = false) :
    ∃ front gap o inside q rest, ts = front ++ t :: (gap ++ o :: (inside ++ q :: rest)) ∧
      (∀ u ∈ gap, u.isTrivia) ∧ o.kind = .openParen ∧ q.kind = .closeParen ∧
      Balanced .openParen .closeParen inside ∧ isSingle (significant inside) = false := by
  have hsimple := h
  unfold isSimple at h
  split at h
  · cases h
  · rename_i opening hopening
    obtain ⟨hnext, hparen⟩ := Option.filter_eq_some_iff.mp hopening
    split at h
    · cases h
    · rename_i closing hclosing
      obtain ⟨front, gap, o, back, rfl, hgap, -, rfl, rfl⟩ := nextSignificant?_eq_some hnext ht
      obtain ⟨o', ho', hok⟩ := kindIs_iff.mp hparen
      rw [getElem?_append_run] at ho'
      obtain rfl := Option.some.inj ho'
      have hshape : front ++ t :: (gap ++ o :: back) = (front ++ t :: gap) ++ o :: back := by simp
      have hlen : front.length + 1 + gap.length = (front ++ t :: gap).length := by
        simp only [List.length_append, List.length_cons]
        omega
      rw [hshape, hlen, closingParen?_eq_some_iff hok] at hclosing
      obtain ⟨inside, q, rest, rfl, hq, hb, -⟩ := hclosing
      rw [isSimple_append hgap hok hb hq] at hsimple
      exact ⟨front, gap, o, inside, q, rest, rfl, hgap, hok, hq, hb, hsimple⟩

theorem names_of_check {f : Builtin} {ts : List Token} {m : Remark} (hm : m ∈ check f ts) :
    m.Names ts := by
  obtain ⟨i, t, ht, hf, hsimple, rfl⟩ := mem_check.mp hm
  obtain ⟨front, gap, o, inside, q, rest, rfl, hcall⟩ := exists_of_isSimple ht hsimple
  exact ⟨front, t, _, rfl, rfl, hf, gap, o, inside, q, rest, rfl, hcall⟩

end Argument

/-- Whatever a rule remarks on is a token of the list, with the tokens around it that make it a
violation. -/
theorem StyleRule.names_of_remarks (r : StyleRule) {ts : List Token} {m : Remark}
    (hm : m ∈ r.remarks ts) : m.Names ts := by
  cases r with
  | camelCase | snakeCase | pascalCase =>
    refine Naming.names_of_check (fun s front t back hk hvalue haccepts => ?_) hm
    exact ⟨hk, hvalue, haccepts⟩
  | spaceBeforeColon | spaceAfterColon | spaceAroundEqual =>
    refine Padding.names_of_check (fun front t back v htarget htight => ?_) hm
    obtain ⟨ht, hv⟩ := Option.ite_none_right_eq_some.mp htarget
    cases hv
    exact ⟨ht, by simpa using htight⟩
  | spaceAroundOperator =>
    refine Padding.names_of_check (fun front t back v htarget htight => ?_) hm
    exact Padding.concerns_of_binaryOperator htarget (by simpa using htight)
  | oneSpaceAfterToken => exact Blank.names_of_checkSpaces hm
  | newlineAfterSemicolon => exact Layout.names_of_checkStatements hm
  | newlineBeforePrintln n => exact Layout.names_of_checkPrintln hm
  | maxOneBlankLine => exact Blank.names_of_checkLines hm
  | ifBraceSameLine => exact Layout.names_of_checkBraces hm
  | printlnSimpleArgument | readInputSimpleArgument => exact Argument.names_of_check hm

theorem StyleRule.names_of_check {r : StyleRule} {ts : List Token} {f : Finding}
    (hf : f ∈ r.check ts) :
    ∃ front t back, ts = front ++ t :: back ∧ f.position = t.position ∧
      f.violation.Concerns front t back := by
  obtain ⟨m, hm, rfl⟩ := List.mem_map.mp hf
  exact r.names_of_remarks hm

end LetScript
