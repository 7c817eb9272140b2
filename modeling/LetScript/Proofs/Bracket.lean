import LetScript.Program.Bracket

/-! Nesting of brackets. How deep a list of tokens leaves the brackets decides
where a bracket is closed and whether the parentheses of a line are balanced. -/
namespace LetScript

/-- How many brackets are open after a list of tokens, `depth` being open before
it. There is no answer if a bracket closes nothing. -/
def depthAfter (opening closing : Kind) : Nat → List Token → Option Nat
  | depth, [] => some depth
  | depth, t :: ts =>
    if t.kind = opening then depthAfter opening closing (depth + 1) ts
    else if t.kind = closing then
      match depth with
      | 0 => none
      | d + 1 => depthAfter opening closing d ts
    else depthAfter opening closing depth ts

/-- Every bracket is closed, and none closes nothing. -/
def Balanced (opening closing : Kind) (ts : List Token) : Prop :=
  depthAfter opening closing 0 ts = some 0

section
variable {opening closing : Kind}

theorem depthAfter_open {t : Token} (h : t.kind = opening) (d : Nat) (ts : List Token) :
    depthAfter opening closing d (t :: ts) = depthAfter opening closing (d + 1) ts := by
  simp [depthAfter, h]

theorem depthAfter_close {t : Token} (hne : t.kind ≠ opening) (h : t.kind = closing) (d : Nat)
    (ts : List Token) :
    depthAfter opening closing (d + 1) (t :: ts) = depthAfter opening closing d ts := by
  rw [depthAfter, if_neg hne, if_pos h]

theorem depthAfter_other {t : Token} (ho : t.kind ≠ opening) (hc : t.kind ≠ closing) (d : Nat)
    (ts : List Token) :
    depthAfter opening closing d (t :: ts) = depthAfter opening closing d ts := by
  simp [depthAfter, ho, hc]

@[simp] theorem depthAfter_append (d : Nat) (as bs : List Token) :
    depthAfter opening closing d (as ++ bs) =
      (depthAfter opening closing d as).bind fun e => depthAfter opening closing e bs := by
  induction as generalizing d with
  | nil => rfl
  | cons t as ih =>
    simp only [List.cons_append, depthAfter, ih]
    split
    · rfl
    · split
      · cases d <;> rfl
      · rfl

/-- The front of a list closes nothing from outside if the whole list does not. -/
theorem exists_depth_of_append {d e : Nat} {as bs : List Token}
    (h : depthAfter opening closing d (as ++ bs) = some e) :
    ∃ e', depthAfter opening closing d as = some e' := by
  rw [depthAfter_append] at h
  obtain ⟨e', he', -⟩ := Option.bind_eq_some_iff.mp h
  exact ⟨e', he'⟩

/-- Further open brackets around a list of tokens stay open. -/
theorem depthAfter_add {d e : Nat} {ts : List Token}
    (h : depthAfter opening closing d ts = some e) (k : Nat) :
    depthAfter opening closing (d + k) ts = some (e + k) := by
  induction ts generalizing d with
  | nil =>
    simp only [depthAfter, Option.some.injEq] at h ⊢
    omega
  | cons t ts ih =>
    simp only [depthAfter] at h ⊢
    split at h
    · have hd : d + k + 1 = d + 1 + k := by omega
      rw [if_pos ‹_›, hd]
      exact ih h
    · rw [if_neg ‹_›]
      split at h
      · rw [if_pos ‹_›]
        cases d with
        | zero => simp at h
        | succ d =>
          have hd : d + 1 + k = d + k + 1 := by omega
          rw [hd]
          exact ih h
      · rw [if_neg ‹_›]
        exact ih h

theorem Balanced.depthAfter_eq {ts : List Token} (h : Balanced opening closing ts) (d : Nat) :
    depthAfter opening closing d ts = some d := by
  simpa using depthAfter_add h d

@[simp] theorem balanced_nil : Balanced opening closing [] := rfl

theorem Balanced.append {as bs : List Token} (ha : Balanced opening closing as)
    (hb : Balanced opening closing bs) : Balanced opening closing (as ++ bs) := by
  rw [Balanced, depthAfter_append, ha]
  exact hb

/-- A token that is no bracket can stand anywhere. -/
theorem Balanced.cons {t : Token} {ts : List Token} (ho : t.kind ≠ opening)
    (hc : t.kind ≠ closing) (h : Balanced opening closing ts) :
    Balanced opening closing (t :: ts) := by
  rw [Balanced, depthAfter_other ho hc]
  exact h

/-- Brackets around a balanced list of tokens. -/
theorem Balanced.enclose {o c : Token} {ts : List Token} (ho : o.kind = opening)
    (hc : c.kind = closing) (hne : opening ≠ closing) (h : Balanced opening closing ts) :
    Balanced opening closing (o :: (ts ++ [c])) := by
  have hn : c.kind ≠ opening := fun he => hne (he.symm.trans hc)
  rw [Balanced, depthAfter_open ho, depthAfter_append, h.depthAfter_eq]
  exact depthAfter_close hn hc 0 []

theorem balanced_of_forall {ts : List Token}
    (h : ∀ t ∈ ts, t.kind ≠ opening ∧ t.kind ≠ closing) : Balanced opening closing ts := by
  induction ts with
  | nil => exact balanced_nil
  | cons t ts ih =>
    have ht := h t (by simp)
    exact (ih fun u hu => h u (by simp [hu])).cons ht.1 ht.2

/-- The search for the closing bracket passes over tokens that close nothing
from outside. -/
theorem cutAtClose_append {d e : Nat} {as : List Token}
    (h : depthAfter opening closing d as = some e) (bs : List Token) :
    cutAtClose opening closing d (as ++ bs) =
      (cutAtClose opening closing e bs).map fun r => (as ++ r.1, r.2) := by
  induction as generalizing d with
  | nil =>
    cases h
    simp
  | cons t as ih =>
    simp only [depthAfter] at h
    simp only [List.cons_append, cutAtClose]
    split at h
    · rw [if_pos ‹_›, ih h, Option.map_map]
      rfl
    · rw [if_neg ‹_›]
      split at h
      · rw [if_pos ‹_›]
        cases d with
        | zero => simp at h
        | succ d =>
          simp only at h ⊢
          rw [ih h, Option.map_map]
          rfl
      · rw [if_neg ‹_›, ih h, Option.map_map]
        rfl

theorem cutAtClose_close {c : Token} (hne : opening ≠ closing) (hc : c.kind = closing)
    (ts : List Token) : cutAtClose opening closing 0 (c :: ts) = some ([], ts) := by
  have hn : c.kind ≠ opening := fun he => hne (he.symm.trans hc)
  rw [cutAtClose, if_neg hn, if_pos hc]

theorem Balanced.cutAtClose {as : List Token} (h : Balanced opening closing as)
    (hne : opening ≠ closing) {c : Token} (hc : c.kind = closing) (bs : List Token) :
    cutAtClose opening closing 0 (as ++ c :: bs) = some (as, bs) := by
  rw [cutAtClose_append h, cutAtClose_close hne hc]
  simp

/-- What is cut off ends just before the bracket that brings the depth below
where it was. -/
theorem eq_of_cutAtClose {d : Nat} {ts inside rest : List Token}
    (h : cutAtClose opening closing d ts = some (inside, rest)) :
    depthAfter opening closing d inside = some 0 ∧
      ∃ c, c.kind = closing ∧ ts = inside ++ c :: rest := by
  induction ts generalizing d inside with
  | nil => simp [LetScript.cutAtClose] at h
  | cons t ts ih =>
    have further {e : Nat} (hr : (LetScript.cutAtClose opening closing e ts).map
        (fun r => (t :: r.1, r.2)) = some (inside, rest))
        (ht : ∀ is, depthAfter opening closing d (t :: is) = depthAfter opening closing e is) :
        depthAfter opening closing d inside = some 0 ∧
          ∃ c, c.kind = closing ∧ t :: ts = inside ++ c :: rest := by
      obtain ⟨⟨is, r⟩, hc, he⟩ := Option.map_eq_some_iff.mp hr
      obtain ⟨rfl, rfl⟩ := Prod.mk.inj he
      obtain ⟨hd, c, hk, rfl⟩ := ih hc
      exact ⟨(ht is).trans hd, c, hk, rfl⟩
    simp only [LetScript.cutAtClose] at h
    split at h
    · rename_i ho
      exact further h (depthAfter_open ho d)
    · rename_i ho
      split at h
      · rename_i hk
        cases d with
        | zero =>
          cases h
          exact ⟨rfl, t, hk, rfl⟩
        | succ d => exact further h (depthAfter_close ho hk d)
      · rename_i hk
        exact further h (depthAfter_other ho hk d)

/-- Tokens that do not close a bracket in front of them leave it open. -/
theorem exists_depth_of_cutAtClose {d : Nat} {ts : List Token}
    (h : LetScript.cutAtClose opening closing d ts = none) :
    ∃ e, depthAfter opening closing d ts = some e := by
  induction ts generalizing d with
  | nil => exact ⟨d, rfl⟩
  | cons t ts ih =>
    simp only [LetScript.cutAtClose] at h
    by_cases ho : t.kind = opening
    · rw [if_pos ho, Option.map_eq_none_iff] at h
      rw [depthAfter_open ho]
      exact ih h
    · by_cases hc : t.kind = closing
      · rw [if_neg ho, if_pos hc] at h
        cases d with
        | zero => cases h
        | succ d =>
          rw [depthAfter_close ho hc]
          exact ih (Option.map_eq_none_iff.mp h)
      · rw [if_neg ho, if_neg hc, Option.map_eq_none_iff] at h
        rw [depthAfter_other ho hc]
        exact ih h

/-- Read backwards, opening and closing brackets change their parts. -/
theorem depthAfter_reverse (hne : opening ≠ closing) {d e : Nat} {ts : List Token}
    (h : depthAfter opening closing d ts = some e) :
    depthAfter closing opening e ts.reverse = some d := by
  induction ts generalizing d with
  | nil =>
    cases h
    rfl
  | cons t ts ih =>
    rw [List.reverse_cons, depthAfter_append]
    by_cases ho : t.kind = opening
    · have hc : t.kind ≠ closing := fun hc => hne (ho.symm.trans hc)
      rw [depthAfter_open ho] at h
      rw [ih h, Option.bind_some, depthAfter_close hc ho]
      rfl
    · by_cases hc : t.kind = closing
      · cases d with
        | zero => simp [depthAfter, hc, hne.symm] at h
        | succ d =>
          rw [depthAfter_close ho hc] at h
          rw [ih h, Option.bind_some, depthAfter_open hc]
          rfl
      · rw [depthAfter_other ho hc] at h
        rw [ih h, Option.bind_some, depthAfter_other hc ho]
        rfl

theorem Balanced.reverse (hne : opening ≠ closing) {ts : List Token}
    (h : Balanced opening closing ts) : Balanced closing opening ts.reverse :=
  depthAfter_reverse hne h

/-- Trivia makes no difference to where a bracket closes. -/
theorem cutAtClose_significant (ho : opening.isTrivia = false) (hc : closing.isTrivia = false)
    (d : Nat) (ts : List Token) :
    cutAtClose opening closing d (significant ts) =
      (cutAtClose opening closing d ts).map fun r => (significant r.1, significant r.2) := by
  induction ts generalizing d with
  | nil => rfl
  | cons t ts ih =>
    have hmap (r : Option (List Token × List Token)) (ht : t.isTrivia = false) :
        (r.map fun r => (significant r.1, significant r.2)).map (fun r => (t :: r.1, r.2)) =
          (r.map fun r => (t :: r.1, r.2)).map fun r => (significant r.1, significant r.2) := by
      simp [Option.map_map, Function.comp_def, significant, ht]
    by_cases ht : t.isTrivia
    · have hto : t.kind ≠ opening := by
        rintro rfl
        simp [Token.isTrivia, ho] at ht
      have htc : t.kind ≠ closing := by
        rintro rfl
        simp [Token.isTrivia, hc] at ht
      have hskip (us : List Token) : significant (t :: us) = significant us := by
        simp [significant, ht]
      simp [hskip, ih, LetScript.cutAtClose, hto, htc, Option.map_map, Function.comp_def]
    · have ht : t.isTrivia = false := by simpa using ht
      have hkeep : significant (t :: ts) = t :: significant ts := by
        simp [significant, ht]
      simp only [hkeep, LetScript.cutAtClose, ih, hmap _ ht]
      split
      · rfl
      · split
        · cases d <;> rfl
        · rfl

@[simp] theorem countKind_cons (k : Kind) (t : Token) (ts : List Token) :
    countKind k (t :: ts) = countKind k ts + if t.kind = k then 1 else 0 := by
  simp [countKind, List.countP_cons]

@[simp] theorem countKind_append (k : Kind) (as bs : List Token) :
    countKind k (as ++ bs) = countKind k as + countKind k bs :=
  List.countP_append

/-- The depth is counted by the brackets on both sides. -/
theorem countKind_of_depthAfter (hne : opening ≠ closing) {d e : Nat} {ts : List Token}
    (h : depthAfter opening closing d ts = some e) :
    d + countKind opening ts = e + countKind closing ts := by
  induction ts generalizing d with
  | nil =>
    cases h
    rfl
  | cons t ts ih =>
    rw [countKind_cons, countKind_cons]
    by_cases ho : t.kind = opening
    · have hc : t.kind ≠ closing := fun hc => hne (ho.symm.trans hc)
      rw [depthAfter_open ho] at h
      have := ih h
      rw [if_pos ho, if_neg hc]
      omega
    · by_cases hc : t.kind = closing
      · cases d with
        | zero => simp [depthAfter, hc, hne.symm] at h
        | succ d =>
          rw [depthAfter_close ho hc] at h
          have := ih h
          rw [if_neg ho, if_pos hc]
          omega
      · rw [depthAfter_other ho hc] at h
        rw [if_neg ho, if_neg hc]
        exact ih h

end

theorem firstExcess?_eq_none_iff (d : Nat) (ts : List Token) :
    firstExcess? d ts = none ↔ ∃ e, depthAfter .openParen .closeParen d ts = some e := by
  induction ts generalizing d with
  | nil => simp [firstExcess?, depthAfter]
  | cons t ts ih =>
    simp only [firstExcess?, depthAfter]
    split
    · exact ih (d + 1)
    · split
      · cases d with
        | zero => simp
        | succ d => exact ih d
      · exact ih d

/-- A line passes exactly if its parentheses are balanced. -/
theorem checkParentheses_eq_ok_iff (ts : List Token) :
    checkParentheses ts = .ok () ↔ Balanced .openParen .closeParen ts := by
  unfold checkParentheses
  cases hx : firstExcess? 0 ts with
  | some p =>
    have hn : ¬ Balanced .openParen .closeParen ts := by
      intro hb
      have := (firstExcess?_eq_none_iff 0 ts).mpr ⟨0, hb⟩
      simp [hx] at this
    simp [hn]
  | none =>
    obtain ⟨e, he⟩ := (firstExcess?_eq_none_iff 0 ts).mp hx
    have hcount := countKind_of_depthAfter (by decide) he
    have hb : Balanced .openParen .closeParen ts ↔ e = 0 := by simp [Balanced, he]
    rw [hb]
    by_cases h : countKind .openParen ts = countKind .closeParen ts
    · simp only [h, if_true, true_iff]
      omega
    · simp only [h, if_false, reduceCtorEq, false_iff]
      omega

end LetScript
