import LetScript.Proofs.Line
import Mathlib.Combinatorics.Enumerative.DyckWord

/-! Nesting of lines. The parentheses of a line are balanced if they spell a Dyck word, a bracket
of a balanced list has its closing bracket in the list, and the lines that tokens are cut into have
balanced braces. Where a conditional comes back out of its braces, it ends or goes on with `else`. -/
namespace LetScript

/-! ### Dyck words -/

def Token.parenStep? (t : Token) : Option DyckStep :=
  if t.kind = .openParen then some .U else if t.kind = .closeParen then some .D else none

/-- The parentheses of a list of tokens as steps up and down. -/
def parenSteps (ts : List Token) : List DyckStep := ts.filterMap Token.parenStep?

theorem parenSteps_open {t : Token} (h : t.kind = .openParen) (ts : List Token) :
    parenSteps (t :: ts) = .U :: parenSteps ts := by
  simp [parenSteps, Token.parenStep?, h]

theorem parenSteps_close {t : Token} (h : t.kind = .closeParen) (ts : List Token) :
    parenSteps (t :: ts) = .D :: parenSteps ts := by
  simp [parenSteps, Token.parenStep?, h]

theorem parenSteps_other {t : Token} (ho : t.kind ≠ .openParen) (hc : t.kind ≠ .closeParen)
    (ts : List Token) : parenSteps (t :: ts) = parenSteps ts := by
  simp [parenSteps, Token.parenStep?, ho, hc]

/-- From the height `d` a word gets to the height `e` without going below the ground. -/
def Climbs (d e : Nat) (w : List DyckStep) : Prop :=
  d + w.count .U = e + w.count .D ∧ ∀ i, (w.take i).count .D ≤ d + (w.take i).count .U

section
variable {d e : Nat} {w : List DyckStep}

@[simp] theorem climbs_nil : Climbs d e [] ↔ d = e := by simp [Climbs]

@[simp] theorem climbs_up : Climbs d e (.U :: w) ↔ Climbs (d + 1) e w := by
  unfold Climbs
  rw [List.count_cons_self, List.count_cons_of_ne (by decide)]
  refine and_congr (by omega) ⟨fun h i => ?_, fun h i => ?_⟩
  · have := h (i + 1)
    rw [List.take_succ_cons, List.count_cons_self, List.count_cons_of_ne (by decide)] at this
    omega
  · cases i with
    | zero => simp
    | succ i =>
      have := h i
      rw [List.take_succ_cons, List.count_cons_self, List.count_cons_of_ne (by decide)]
      omega

@[simp] theorem climbs_down : Climbs (d + 1) e (.D :: w) ↔ Climbs d e w := by
  unfold Climbs
  rw [List.count_cons_self, List.count_cons_of_ne (by decide)]
  refine and_congr (by omega) ⟨fun h i => ?_, fun h i => ?_⟩
  · have := h (i + 1)
    rw [List.take_succ_cons, List.count_cons_self, List.count_cons_of_ne (by decide)] at this
    omega
  · cases i with
    | zero => simp
    | succ i =>
      have := h i
      rw [List.take_succ_cons, List.count_cons_self, List.count_cons_of_ne (by decide)]
      omega

theorem not_climbs_down : ¬ Climbs 0 e (.D :: w) := by
  rintro ⟨-, h⟩
  simpa using h 1

end

theorem depthAfter_eq_some_iff {d e : Nat} {ts : List Token} :
    depthAfter .openParen .closeParen d ts = some e ↔ Climbs d e (parenSteps ts) := by
  induction ts generalizing d with
  | nil => simp [depthAfter, parenSteps]
  | cons t ts ih =>
    by_cases ho : t.kind = .openParen
    · rw [depthAfter_open ho, parenSteps_open ho, climbs_up, ih]
    · by_cases hc : t.kind = .closeParen
      · rw [parenSteps_close hc]
        cases d with
        | zero => simp [depthAfter, hc, not_climbs_down]
        | succ d => rw [depthAfter_close ho hc, climbs_down, ih]
      · rw [depthAfter_other ho hc, parenSteps_other ho hc, ih]

theorem balanced_iff_dyck (ts : List Token) :
    Balanced .openParen .closeParen ts ↔ ∃ w : DyckWord, w.toList = parenSteps ts := by
  rw [Balanced, depthAfter_eq_some_iff, Climbs]
  simp only [Nat.zero_add]
  constructor
  · rintro ⟨hcount, hle⟩
    exact ⟨⟨parenSteps ts, hcount, hle⟩, rfl⟩
  · rintro ⟨w, hw⟩
    rw [← hw]
    exact ⟨w.count_U_eq_count_D, w.count_D_le_count_U⟩

theorem countKind_parens (ts : List Token) :
    countKind .openParen ts = (parenSteps ts).count .U ∧
      countKind .closeParen ts = (parenSteps ts).count .D := by
  induction ts with
  | nil => exact ⟨rfl, rfl⟩
  | cons t ts ih =>
    obtain ⟨hup, hdown⟩ := ih
    simp only [countKind] at hup hdown
    by_cases ho : t.kind = .openParen
    · simp [countKind, parenSteps_open ho, ho, hup, hdown]
    · by_cases hc : t.kind = .closeParen
      · simp [countKind, parenSteps_close hc, hc, hup, hdown]
      · simp [countKind, parenSteps_other ho hc, ho, hc, hup, hdown]

theorem fault_of_checkParentheses {ts : List Token} {e : SyntaxError}
    (h : checkParentheses ts = .error e) :
    e.fault = .unbalancedParentheses ((parenSteps ts).count .U) ((parenSteps ts).count .D) := by
  rw [← (countKind_parens ts).1, ← (countKind_parens ts).2]
  unfold checkParentheses at h
  cases hx : firstExcess? 0 ts with
  | some p =>
    rw [hx] at h
    cases h
    rfl
  | none =>
    simp only [hx] at h
    split at h
    · cases h
    · obtain rfl := Except.error.inj h
      rfl

/-! ### Brackets that close -/

section
variable {opening closing : Kind}

theorem exists_cutAtClose {d : Nat} {ts : List Token}
    (h : depthAfter opening closing (d + 1) ts = some 0) :
    ∃ r, cutAtClose opening closing d ts = some r := by
  cases hcut : cutAtClose opening closing d ts with
  | none =>
    obtain ⟨e, he⟩ := exists_depth_of_cutAtClose hcut
    rw [depthAfter_add he 1] at h
    simp at h
  | some r => exact ⟨r, rfl⟩

/-- What stands behind a balanced list in a balanced one is balanced. -/
theorem Balanced.of_append {as bs : List Token} (h : Balanced opening closing (as ++ bs))
    (ha : Balanced opening closing as) : Balanced opening closing bs := by
  rw [Balanced, depthAfter_append, ha] at h
  exact h

theorem Balanced.of_cons {t : Token} {ts : List Token} (h : Balanced opening closing (t :: ts))
    (ho : t.kind ≠ opening) (hc : t.kind ≠ closing) : Balanced opening closing ts := by
  rw [Balanced, depthAfter_other ho hc] at h
  exact h

/-- The first bracket of a balanced list is closed in it. -/
theorem Balanced.exists_cut {o : Token} {ts : List Token} (hne : opening ≠ closing)
    (h : Balanced opening closing (o :: ts)) (ho : o.kind = opening) :
    ∃ inside c rest, LetScript.cutAtClose opening closing 0 ts = some (inside, rest) ∧
      c.kind = closing ∧ ts = inside ++ c :: rest ∧
      Balanced opening closing inside ∧ Balanced opening closing rest := by
  rw [Balanced, depthAfter_open ho] at h
  obtain ⟨⟨inside, rest⟩, hcut⟩ := exists_cutAtClose h
  obtain ⟨hin, c, hc, rfl⟩ := eq_of_cutAtClose hcut
  have hn : c.kind ≠ opening := fun he => hne (he.symm.trans hc)
  rw [depthAfter_append, Balanced.depthAfter_eq hin, Option.bind_some, depthAfter_close hn hc] at h
  exact ⟨inside, c, rest, hcut, hc, rfl, hin, h⟩

end

/-! ### Lines -/

/-- Where the tokens come back out of their braces, they end or go on with `else`. -/
def EndsOutside (ts : List Token) : Prop :=
  ∀ front c rest, ts = front ++ c :: rest → c.kind = .closeBrace →
    Balanced .openBrace .closeBrace (front ++ [c]) → rest = [] ∨ elseFollows rest

theorem EndsOutside.of_append {as bs : List Token} (h : EndsOutside (as ++ bs))
    (ha : Balanced .openBrace .closeBrace as) : EndsOutside bs := by
  rintro front c rest rfl hc hb
  refine h (as ++ front) c rest (by simp) hc ?_
  rw [List.append_assoc]
  exact ha.append hb

/-- The braces of a line are balanced, and a conditional ends with its last branch. -/
structure Line.Sealed (l : Line) : Prop where
  balanced : Balanced .openBrace .closeBrace l.tokens
  ends : l.first.kind = .ifWord → EndsOutside l.tokens

/-- What holds of the line so far: it has `d` braces open, and where a conditional came back out of
its braces, it went on with `else`. -/
structure Underway (d : Nat) (current ts : List Token) : Prop where
  depth : depthAfter .openBrace .closeBrace 0 current = some d
  goesOn : current.head?.any (fun t => t.kind = .ifWord) →
    ∀ front c rest, current = front ++ c :: rest → c.kind = .closeBrace →
      Balanced .openBrace .closeBrace (front ++ [c]) → elseFollows (rest ++ ts)

theorem elseFollows_append {as : List Token} (h : as ≠ []) (bs : List Token) :
    elseFollows (as ++ bs) = elseFollows as := by
  cases as with
  | nil => exact absurd rfl h
  | cons t as => rfl

/-- A line is completed outside all braces, by a semicolon or by the brace that leads there. -/
theorem cutStep_eq_complete {d : Nat} {current : List Token} {t : Token} {b : Bool} {l : Line}
    (h : cutStep d current t b = .complete l) :
    t.kind = .semicolon ∧ d = 0 ∧ current = l.tokens ∨
      t.kind = .closeBrace ∧ d = 1 ∧ current ++ [t] = l.tokens := by
  unfold cutStep at h
  split at h
  · cases h
  · rename_i hk
    split at h
    · cases h
    · split at h
      · cases h
        exact .inr ⟨hk, rfl, rfl⟩
      · cases h
    · cases h
  · rename_i hk
    split at h
    · cases h
    · cases h
      exact .inl ⟨hk, rfl, rfl⟩
    · cases h
  · cases h

/-- The line of a conditional goes on outside its braces only before `else`. -/
theorem beforeElse_of_join {f t : Token} {r : List Token} {b : Bool} {d : Nat}
    (hf : f.kind = .ifWord) (ht : t.kind = .closeBrace)
    (h : cutStep 1 (f :: r) t b = .join d) : b = true := by
  cases b with
  | true => rfl
  | false => simp [cutStep, ht, hf] at h

/-- The last token of a list is the one that a split is made at, or stands behind it. -/
theorem append_singleton_eq_append {as front rest : List Token} {t c : Token}
    (h : as ++ [t] = front ++ c :: rest) :
    rest = [] ∧ as = front ∧ t = c ∨ ∃ rest', rest = rest' ++ [t] ∧ as = front ++ c :: rest' := by
  rcases List.eq_nil_or_concat' rest with rfl | ⟨rest, u, rfl⟩
  · obtain ⟨rfl, ht⟩ := List.append_inj' h rfl
    exact .inl ⟨rfl, rfl, List.head_eq_of_cons_eq ht⟩
  · rw [← List.cons_append, ← List.append_assoc] at h
    obtain ⟨rfl, ht⟩ := List.append_inj' h rfl
    exact .inr ⟨rest, by rw [ht], rfl⟩

namespace Underway

variable {d d' : Nat} {current ts : List Token} {t : Token} {l : Line}

theorem nil (ts : List Token) : Underway 0 [] ts := ⟨rfl, by simp⟩

theorem join (h : Underway d current (t :: ts))
    (hs : cutStep d current t (elseFollows ts) = .join d') : Underway d' (current ++ [t]) ts := by
  have hstep := cutStep_spec d current t (elseFollows ts)
  rw [hs] at hstep
  have hdepth : depthAfter .openBrace .closeBrace 0 (current ++ [t]) = some d' := by
    rw [depthAfter_append, h.depth]
    exact hstep
  refine ⟨hdepth, fun hif front c rest heq hc hb => ?_⟩
  rcases append_singleton_eq_append heq with ⟨rfl, rfl, rfl⟩ | ⟨rest, rfl, rfl⟩
  · obtain rfl : d' = 0 := by simpa [Balanced, hdepth] using hb
    cases d with
    | zero => simp [depthAfter, hc] at hstep
    | succ d =>
      obtain rfl : d = 0 := by simpa [depthAfter, hc] using hstep
      cases current with
      | nil => cases h.depth
      | cons f r => exact beforeElse_of_join (by simpa using hif) hc hs
  · rw [List.append_assoc]
    exact h.goesOn (by simpa using hif) front c rest rfl hc hb

theorem complete (h : Underway d current (t :: ts))
    (hs : cutStep d current t (elseFollows ts) = .complete l) : l.Sealed := by
  rcases cutStep_eq_complete hs with ⟨-, rfl, rfl⟩ | ⟨ht, rfl, htokens⟩
  · refine ⟨h.depth, fun hif front c rest heq hc hb => ?_⟩
    by_cases hrest : rest = []
    · exact .inl hrest
    · right
      rw [← elseFollows_append hrest]
      exact h.goesOn (by simpa [Line.tokens] using hif) front c rest heq hc hb
  · refine ⟨?_, fun hif front c rest heq hc hb => ?_⟩
    · rw [← htokens, Balanced, depthAfter_append, h.depth]
      simp [depthAfter, ht]
    · rw [← htokens] at heq
      rcases append_singleton_eq_append heq with ⟨rfl, -, -⟩ | ⟨rest, rfl, rfl⟩
      · exact .inl rfl
      · right
        have hfirst : (front ++ c :: rest).head? = some l.first := by
          simpa [Line.tokens] using congrArg List.head? htokens
        rw [← elseFollows_append (by simp) ts, List.append_assoc]
        exact h.goesOn (by simpa [hfirst] using hif) front c rest rfl hc hb

end Underway

theorem cutFrom_sealed {d : Nat} {current ts : List Token} (h : Underway d current ts) {l : Line}
    (hl : l ∈ (cutFrom d current ts).lines) : l.Sealed := by
  induction ts generalizing d current with
  | nil =>
    simp only [cutFrom] at hl
    split at hl
    · simp at hl
    · split at hl <;> simp at hl
  | cons t ts ih =>
    rw [cutFrom_cons] at hl
    cases hs : cutStep d current t (elseFollows ts) with
    | join d' =>
      simp only [hs] at hl
      exact ih (h.join hs) hl
    | skip =>
      simp only [hs] at hl
      exact ih (.nil ts) hl
    | complete l' =>
      simp only [hs] at hl
      rcases List.mem_cons.mp hl with rfl | hl
      · exact h.complete hs
      · exact ih (.nil ts) hl
    | fault e =>
      simp only [hs] at hl
      exact absurd hl List.not_mem_nil

theorem cutLines_sealed {ts : List Token} {l : Line} (hl : l ∈ (cutLines ts).lines) : l.Sealed :=
  cutFrom_sealed (.nil ts) hl

theorem CutsInto.balanced {ts : List Token} {ls : List Line} (h : CutsInto ts ls)
    (hl : ∀ l ∈ ls, Balanced .openBrace .closeBrace l.tokens) :
    Balanced .openBrace .closeBrace ts := by
  induction h with
  | nil => exact balanced_nil
  | empty ht h ih => exact (ih hl).cons (by simp [ht]) (by simp [ht])
  | ended ht h ih =>
    have hrest := ih fun l hl' => hl l (by simp [hl'])
    exact (hl _ (by simp)).append (hrest.cons (by simp [ht]) (by simp [ht]))
  | closed hif h ih => exact (hl _ (by simp)).append (ih fun l hl' => hl l (by simp [hl']))

/-- Cutting tokens with balanced braces fails at most for want of a semicolon. -/
theorem fault_of_balanced {ts : List Token} (h : Balanced .openBrace .closeBrace ts)
    {e : SyntaxError} (he : (cutLines ts).fault = some e) : e.fault = .missingTerminator := by
  obtain ⟨front, rest, hts, hfront, hrest⟩ := cutLines_divides ts
  rw [hts] at h
  have hb := h.of_append (hfront.balanced fun l hl => (cutLines_sealed hl).balanced)
  rw [he] at hrest
  cases hrest with
  | unterminated => rfl
  | unclosed hd => simp [Balanced, hd] at hb
  | excess hr hc =>
    have hclose := hb.of_append hr
    simp [Balanced, depthAfter, hc] at hclose

end LetScript
