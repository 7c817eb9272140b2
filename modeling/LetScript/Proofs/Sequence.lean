import LetScript.Proofs.Block
import LetScript.Proofs.Sheet

/-! Programs one after another. Where no line is open the next one begins afresh, so the
lines of two lists of tokens are cut and read on their own. -/
namespace LetScript

/-- The lines of two lists of tokens one after another. -/
def Cut.append (c c' : Cut) : Cut := ⟨c.lines ++ c'.lines, c'.fault⟩

/-- A list of tokens that is cut without a fault leaves no line open, so what comes after
it is cut on its own. Only a closing brace looks ahead. -/
theorem cutFrom_append {d : Nat} {current ts us : List Token} (hd : current = [] → d = 0)
    (hfault : (cutFrom d current ts).fault = none)
    (helse : ∀ t, ts.getLast? = some t → t.kind = .closeBrace → elseFollows us = false) :
    cutFrom d current (ts ++ us) = (cutFrom d current ts).append (cutLines us) := by
  induction ts generalizing d current with
  | nil =>
    cases current with
    | nil =>
      rw [hd rfl]
      rfl
    | cons f r =>
      simp only [cutFrom] at hfault
      split at hfault <;> simp at hfault
  | cons t ts ih =>
    have hlast : ∀ u, ts.getLast? = some u → u.kind = .closeBrace → elseFollows us = false := by
      intro u hu
      exact helse u (by simp [List.getLast?_cons, hu])
    have hstep : cutStep d current t (elseFollows (ts ++ us)) =
        cutStep d current t (elseFollows ts) := by
      by_cases ht : t.kind = .closeBrace
      · cases ts with
        | nil => rw [List.nil_append, helse t rfl ht]; rfl
        | cons u ts => rfl
      · exact cutStep_of_kind_ne ht ..
    rw [cutFrom_cons] at hfault ⊢
    rw [List.cons_append, cutFrom_cons, hstep]
    cases hs : cutStep d current t (elseFollows ts) with
    | join d' =>
      rw [hs] at hfault
      exact ih (by simp) hfault hlast
    | skip =>
      rw [hs] at hfault
      exact ih (fun _ => rfl) hfault hlast
    | complete l =>
      rw [hs] at hfault
      simp only [ih (fun _ => rfl) hfault hlast]
      rfl
    | fault e => simp [hs] at hfault

theorem cutLines_append {ts us : List Token} (hfault : (cutLines ts).fault = none)
    (helse : ∀ t, ts.getLast? = some t → t.kind = .closeBrace → elseFollows us = false) :
    cutLines (ts ++ us) = (cutLines ts).append (cutLines us) :=
  cutFrom_append (fun _ => rfl) hfault helse

theorem readBlock_append {ts us : List Token} {ss : List Statement} (h : readBlock ts = .ok ss)
    (helse : ∀ t, ts.getLast? = some t → t.kind = .closeBrace → elseFollows us = false) :
    readBlock (ts ++ us) = (readBlock us).map fun xs => ss ++ xs := by
  obtain ⟨hlines, hfault⟩ := readBlock_eq_ok h
  rw [readBlock_eq, readBlock_eq, cutLines_append hfault helse]
  simp only [Cut.append, List.mapM_append, hlines]
  cases (cutLines us).lines.mapM readStatement with
  | error e => rfl
  | ok xs => cases (cutLines us).fault <;> rfl

/-- Statements are read independently of what comes before them, unless a brace at the
end meets an `else`: line by line if the first tokens are cut without a fault, whatever
else is wrong with their lines, and as a whole if they are a program. -/
theorem parse_append (as bs : List Token)
    (helse : ∀ t u, (significant as).getLast? = some t → (significant bs).head? = some u →
      ¬(t.kind = .closeBrace ∧ u.kind = .elseWord)) :
    ((cutLines (significant as)).fault = none →
      parseEachLine (as ++ bs) = parseEachLine as ++ parseEachLine bs) ∧
    ∀ ss, parse as = .ok ss → parse (as ++ bs) = (parse bs).map fun xs => ss ++ xs := by
  have hlast : ∀ t, (significant as).getLast? = some t → t.kind = .closeBrace →
      elseFollows (significant bs) = false := by
    intro t ht hk
    cases hbs : significant bs with
    | nil => rfl
    | cons u us =>
      have hu : u.kind ≠ .elseWord := fun hu => helse t u ht (by rw [hbs]; rfl) ⟨hk, hu⟩
      simpa [elseFollows] using hu
  refine ⟨fun hfault => ?_, fun ss h => ?_⟩
  · simp [parseEachLine, cutLines_append hfault hlast, Cut.append, hfault]
  · rw [parse, significant_append]
    exact readBlock_append h hlast

/-- A malformed line with braces before a stray `else`, and a conditional before both. -/
theorem parse_append_malformed :
    let as : List Token := [.identifier "x" ⟨1, 0⟩, .raw .openBrace "\x7b" ⟨1, 1⟩,
      .raw .semicolon ";" ⟨1, 2⟩, .raw .closeBrace "\x7d" ⟨1, 3⟩, .raw .semicolon ";" ⟨1, 4⟩]
    let bs : List Token := [.raw .newline "\n" ⟨1, 5⟩, .raw .elseWord "else" ⟨2, 0⟩]
    let cs : List Token := [.raw .ifWord "if" ⟨1, 0⟩, .raw .openParen "(" ⟨1, 2⟩,
      .identifier "a" ⟨1, 3⟩, .raw .closeParen ")" ⟨1, 4⟩, .raw .openBrace "\x7b" ⟨1, 5⟩,
      .raw .closeBrace "\x7d" ⟨1, 6⟩]
    let ss : List Statement := [.branch (.identifier ⟨"a", ⟨1, 3⟩⟩) [] none ⟨1, 0⟩]
    (cutLines (significant as)).fault = none ∧
      parseEachLine (as ++ bs) = parseEachLine as ++ parseEachLine bs ∧
      parse cs = .ok ss ∧ parse (cs ++ as) = (parse as).map fun xs => ss ++ xs := by
  intro as bs cs ss
  have hfault : (cutLines (significant as)).fault = none := by decide
  have condition : Phrase .sum [.identifier "a" ⟨1, 3⟩] (.identifier ⟨"a", ⟨1, 3⟩⟩) :=
    .term (.factor (.operand (.name "a" ⟨1, 3⟩)))
  have program : Block (significant cs) ss := .branch (Token.isRaw_raw _ "if" ⟨1, 0⟩)
    (Token.isRaw_raw _ "(" ⟨1, 2⟩) condition (Token.isRaw_raw _ ")" ⟨1, 4⟩)
    (Token.isRaw_raw _ "\x7b" ⟨1, 5⟩) .nil (Token.isRaw_raw _ "\x7d" ⟨1, 6⟩) .nil
  have hparse : parse cs = .ok ss := Block.readBlock_of_lines program.reads
  refine ⟨hfault, (parse_append as bs ?_).1 hfault, hparse, (parse_append cs as ?_).2 ss hparse⟩
  · rintro t u ⟨⟩ ⟨⟩
    decide
  · rintro t u ⟨⟩ ⟨⟩
    decide

end LetScript
