import LetScript.Position

/-! Rows and columns in the lines of a text. Places are counted character by character, and
lines are cut off at line feeds. Main statement: in a text whose carriage returns all belong to
line breaks, the character at a place stands in the line of the row, at the column. -/
namespace LetScript

/-- Whether each carriage return has a line feed right behind it. -/
def pairedReturns : List Char → Bool
  | [] => true
  | c :: cs => (c != '\r' || cs.head? == some '\n') && pairedReturns cs

theorem pairedReturns_right {as bs : List Char} (h : pairedReturns (as ++ bs)) :
    pairedReturns bs := by
  induction as with
  | nil => exact h
  | cons c as ih =>
    rw [List.cons_append, pairedReturns, Bool.and_eq_true] at h
    exact ih h.2

theorem head?_of_pairedReturns {as bs : List Char} (h : pairedReturns (as ++ '\r' :: bs)) :
    bs.head? = some '\n' := by
  have h := pairedReturns_right h
  simp only [pairedReturns, bne_self_eq_false, Bool.false_or, Bool.and_eq_true, beq_iff_eq] at h
  exact h.1

/-- Within a line there is no carriage return. -/
theorem no_return {as bs : List Char} {c : Char} (h : pairedReturns (as ++ c :: bs))
    (has : '\n' ∉ as) (hc : c ≠ '\n') : '\r' ∉ as := by
  intro hmem
  obtain ⟨front, back, rfl⟩ := List.append_of_mem hmem
  rw [List.append_assoc, List.cons_append] at h
  have hhead := head?_of_pairedReturns h
  cases back with
  | nil => exact hc (Option.some.inj hhead)
  | cons d back =>
    rw [List.cons_append, List.head?_cons, Option.some.injEq] at hhead
    simp [hhead] at has

/-! ### Lines with their first characters seen -/

/-- The characters of a line without the carriage return of its line break, the last one
first. -/
def dropReturn : List Char → List Char
  | '\r' :: more => more
  | seen => seen

@[simp] theorem linesFrom_feed (seen cs : List Char) :
    linesFrom seen ('\n' :: cs) = (dropReturn seen).reverse :: linesFrom [] cs := by
  cases seen with
  | nil => simp [linesFrom, dropReturn]
  | cons d seen => by_cases hd : d = '\r' <;> simp [linesFrom, dropReturn, hd]

@[simp] theorem linesFrom_cons {c : Char} (hc : c ≠ '\n') (seen cs : List Char) :
    linesFrom seen (c :: cs) = linesFrom (c :: seen) cs := by
  rw [linesFrom.eq_def]
  simp [hc]

theorem filter_of_no_return {seen : List Char} (h : '\r' ∉ seen) :
    seen.filter (· != '\r') = seen := by
  refine List.filter_eq_self.mpr fun c hc => ?_
  rw [bne_iff_ne]
  exact ne_of_mem_of_not_mem hc h

/-- The carriage return of the line break is the only one. -/
theorem dropReturn_eq_filter {seen cs : List Char} (h : pairedReturns (seen.reverse ++ '\n' :: cs))
    (hseen : '\n' ∉ seen) : dropReturn seen = seen.filter (· != '\r') := by
  cases seen with
  | nil => rfl
  | cons d seen =>
    rw [List.mem_cons, not_or] at hseen
    rw [List.reverse_cons, List.append_assoc, List.singleton_append] at h
    have hmore : '\r' ∉ seen := by
      simpa using no_return h (by simpa using hseen.2) (Ne.symm hseen.1)
    by_cases hd : d = '\r'
    · simp [dropReturn, hd, filter_of_no_return hmore]
    · simp [dropReturn, hd, filter_of_no_return hmore]

theorem exists_dropReturn {seen : List Char} {c : Char} (hc : c ≠ '\r') (later : List Char) :
    ∃ later', dropReturn (later ++ c :: seen) = later' ++ c :: seen := by
  unfold dropReturn
  split
  · rename_i more h
    cases later with
    | nil => exact absurd (List.cons.inj h).1 hc
    | cons d later => exact ⟨later, (List.cons.inj h).2.symm⟩
  · exact ⟨later, rfl⟩

/-- What is seen of a line is the beginning of it. -/
theorem linesFrom_seen {seen : List Char} {c : Char} (hc : c ≠ '\r') (later cs : List Char) :
    ∃ more rest, linesFrom (later ++ c :: seen) cs = (seen.reverse ++ c :: more) :: rest := by
  induction cs generalizing later with
  | nil => exact ⟨later.reverse, [], by simp [linesFrom]⟩
  | cons d cs ih =>
    by_cases hd : d = '\n'
    · obtain ⟨later', hdrop⟩ := @exists_dropReturn seen c hc later
      refine ⟨later'.reverse, linesFrom [] cs, ?_⟩
      rw [hd, linesFrom_feed, hdrop]
      simp
    · rw [linesFrom_cons hd]
      exact ih (d :: later)

theorem newline_notMem_linesFrom {seen cs : List Char} (h : '\n' ∉ seen) :
    ∀ line ∈ linesFrom seen cs, '\n' ∉ line := by
  induction cs generalizing seen with
  | nil =>
    intro line hline
    rw [linesFrom] at hline
    split at hline
    · exact nomatch hline
    · rw [List.mem_singleton.mp hline, List.mem_reverse]
      exact h
  | cons c cs ih =>
    by_cases hc : c = '\n'
    · rw [hc, linesFrom_feed]
      refine List.forall_mem_cons.mpr ⟨?_, ih (List.not_mem_nil)⟩
      rw [List.mem_reverse]
      unfold dropReturn
      split <;> simp_all
    · rw [linesFrom_cons hc]
      exact ih (by simp [h, Ne.symm hc])

/-! ### Characters of a text in its lines -/

/-- A character at a column of a line. The line break stands behind the last column. -/
def StandsAt (text : List Char) (column : Nat) (c : Char) : Prop :=
  if c = '\n' ∨ c = '\r' then column = text.length else text[column]? = some c

/-- A character behind the part `u` of a text stands in the line that `u` leads to, if the
line before it was seen already. -/
theorem linesFrom_standsAt {u w seen : List Char} {c : Char} {p : Position}
    (h : pairedReturns (seen.reverse ++ (u ++ c :: w))) (hseen : '\n' ∉ seen)
    (hcolumn : p.column = (seen.filter (· != '\r')).length) :
    ∃ k line, (p.advance u).row = p.row + k ∧ (linesFrom seen (u ++ c :: w))[k]? = some line ∧
      StandsAt line (p.advance u).column c := by
  induction u generalizing seen p with
  | nil =>
    rw [List.nil_append] at h ⊢
    rw [Position.advance_nil, hcolumn]
    by_cases hc : c = '\n'
    · subst hc
      refine ⟨0, (dropReturn seen).reverse, rfl, by rw [linesFrom_feed]; rfl, ?_⟩
      simp [StandsAt, dropReturn_eq_filter h hseen]
    have hreturn : '\r' ∉ seen := by simpa using no_return h (by simpa using hseen) hc
    rw [filter_of_no_return hreturn]
    by_cases hr : c = '\r'
    · subst hr
      obtain ⟨w, rfl⟩ : ∃ w', w = '\n' :: w' := by
        have hhead := head?_of_pairedReturns h
        cases w <;> simp_all
      refine ⟨0, seen.reverse, rfl, ?_, by simp [StandsAt]⟩
      rw [linesFrom_cons hc, linesFrom_feed]
      rfl
    · obtain ⟨more, rest, hlines⟩ := @linesFrom_seen seen c hr [] w
      refine ⟨0, seen.reverse ++ c :: more, rfl, ?_, by simp [StandsAt, hc, hr]⟩
      rw [linesFrom_cons hc]
      exact congrArg (·[0]?) hlines
  | cons d u ih =>
    rw [List.cons_append, Position.advance_cons]
    by_cases hd : d = '\n'
    · subst hd
      have hrest : pairedReturns ([].reverse ++ (u ++ c :: w)) :=
        @pairedReturns_right (seen.reverse ++ ['\n']) _ (by simpa using h)
      obtain ⟨k, line, hrow, hline, hstands⟩ := ih hrest List.not_mem_nil (p := p.step '\n') rfl
      refine ⟨k + 1, line, ?_, ?_, hstands⟩
      · rw [hrow]
        simp only [Position.step, if_true]
        omega
      · rw [linesFrom_feed]
        exact hline
    · have hstep : (p.step d).row = p.row ∧
          (p.step d).column = ((d :: seen).filter (· != '\r')).length := by
        by_cases hr : d = '\r' <;> simp [Position.step, hd, hr, hcolumn]
      rw [linesFrom_cons hd, ← hstep.1]
      exact ih (by simpa using h) (by simp [hseen, Ne.symm hd]) hstep.2

/-- A character of a text stands in the line of its row, at its column. -/
theorem lineText?_standsAt {source : String} (h : pairedReturns source.toList) {u w : List Char}
    {c : Char} (hsource : source.toList = u ++ c :: w) :
    ∃ line, lineText? source (Position.start.advance u).row = some line ∧ '\n' ∉ line ∧
      StandsAt line (Position.start.advance u).column c := by
  rw [hsource] at h
  obtain ⟨k, line, hrow, hline, hstands⟩ :=
    @linesFrom_standsAt u w [] c .start h List.not_mem_nil rfl
  refine ⟨line, ?_, newline_notMem_linesFrom List.not_mem_nil _ (List.mem_of_getElem? hline),
    hstands⟩
  have hrow' : (Position.start.advance u).row = k + 1 := hrow.trans (Nat.add_comm 1 k)
  rw [hrow', lineText?, textLines, hsource]
  exact hline

end LetScript
