import LetScript.Proofs.Table

/-! Quotation. A text is quoted with single marks if there is a double one in it, and a quoted text
is read up to the next mark like the first one, on the same line. Main statement: reading gives the
text back exactly if it is on one line and does not hold both marks. Any other text is refused or
comes out shorter, whatever stands behind it. -/
namespace LetScript

/-- The mark that a text is quoted with. -/
def quoteMark (cs : List Char) : Char := if cs.contains '\x22' then '\x27' else '\x22'

theorem quoted_append (cs rest : List Char) :
    quoted cs ++ rest = quoteMark cs :: cs ++ quoteMark cs :: rest := by
  rw [List.append_cons]
  rfl

theorem quoteMark_cases (cs : List Char) : quoteMark cs = '\x22' ∨ quoteMark cs = '\x27' := by
  unfold quoteMark
  split
  · exact .inr rfl
  · exact .inl rfl

theorem quoteMark_mem_iff {cs : List Char} : quoteMark cs ∈ cs ↔ '\x22' ∈ cs ∧ '\x27' ∈ cs := by
  by_cases h : '\x22' ∈ cs <;> simp [quoteMark, h]

theorem utf8ByteSize_enclosed {q : Char} (hq : q = '\x22' ∨ q = '\x27') (cs : List Char) :
    (String.ofList (q :: cs ++ [q])).utf8ByteSize = (String.ofList cs).utf8ByteSize + 2 := by
  have hsize : q.utf8Size = 1 := by rcases hq with rfl | rfl <;> rfl
  simp only [← String.utf8Len_toList, String.toList_ofList, List.cons_append, String.utf8Len_cons,
    String.utf8Len_append, String.utf8Len_nil, hsize]

namespace LexRule

theorem stringLiteral?_undoes {cs : List Char} (hnl : '\n' ∉ cs) (hmark : quoteMark cs ∉ cs)
    (p : Position) (rest : List Char) :
    stringLiteral? p (quoted cs ++ rest) =
      .ok (some ⟨.string, .string (String.ofList cs), quoted cs, rest⟩) := by
  rw [quoted_append]
  exact stringLiteral?_quoted (quoteMark_cases cs) hnl hmark p rest

/-- Reading stops at the first line break or mark inside the text. -/
theorem stringLiteral?_breaks {cs : List Char} (h : '\n' ∈ cs ∨ quoteMark cs ∈ cs) (p : Position)
    (rest : List Char) :
    ∃ front c back, cs = front ++ c :: back ∧
      (c = '\n' ∧ stringLiteral? p (quoted cs ++ rest) =
          .error (.unmatchedQuote (quoteMark cs) p) ∨
        c = quoteMark cs ∧ ∃ more, stringLiteral? p (quoted cs ++ rest) =
          .ok (some ⟨.string, .string (String.ofList front), c :: front ++ [c], more⟩)) := by
  rw [quoted_append]
  have hq := quoteMark_cases cs
  generalize quoteMark cs = q at h hq ⊢
  obtain ⟨front, tail, rfl, hfront, htail⟩ := exists_run (fun c => c != q && c != '\n') cs
  have hnl : '\n' ∉ front := fun hmem => by simpa using hfront _ hmem
  have hmark : q ∉ front := fun hmem => by simpa using hfront _ hmem
  cases tail with
  | nil =>
    rw [List.append_nil] at h
    exact absurd h (not_or.mpr ⟨hnl, hmark⟩)
  | cons c back =>
    refine ⟨front, c, back, rfl, ?_⟩
    by_cases hc : c = q
    · subst hc
      refine .inr ⟨rfl, back ++ c :: rest, ?_⟩
      rw [List.cons_append, List.append_assoc, ← List.cons_append]
      exact stringLiteral?_quoted hq hnl hmark p _
    · obtain rfl : c = '\n' := by simpa [startsWith, hc] using htail
      refine .inl ⟨rfl, ?_⟩
      rw [List.cons_append, List.append_assoc, ← List.cons_append]
      exact stringLiteral?_open hq hnl hmark rfl p

theorem scanAt_quoted_eq (cs : List Char) (rest : String) (p : Position) :
    stringLiteral.scanAt (String.ofList (quoted cs) ++ rest) 0 p =
      (stringLiteral? p (quoted cs ++ rest.toList)).map fun answer => answer.map fun l =>
        (l.token p, (String.ofList l.text).utf8ByteSize) := by
  have hscan := scanAt_append stringLiteral "" (String.ofList (quoted cs) ++ rest) p
  rw [String.empty_append, String.toList_append, String.toList_ofList, String.utf8ByteSize_empty]
    at hscan
  simp only [Nat.zero_add] at hscan
  exact hscan

/-- A text with a line break or both marks in it does not come out whole. -/
theorem scanAt_quoted_breaks {s : String} (h : '\n' ∈ s.toList ∨ quoteMark s.toList ∈ s.toList)
    (rest : String) (p : Position) :
    ∃ front c back, s.toList = front ++ c :: back ∧
      (c = '\n' ∧ stringLiteral.scanAt (String.ofList (quoted s.toList) ++ rest) 0 p =
          .error (.unmatchedQuote (quoteMark s.toList) p) ∨
        c = quoteMark s.toList ∧
          stringLiteral.scanAt (String.ofList (quoted s.toList) ++ rest) 0 p = .ok (some
            (.string (String.ofList front) p, (String.ofList front).utf8ByteSize + 2))) := by
  obtain ⟨front, c, back, hs, hstop⟩ := stringLiteral?_breaks h p rest.toList
  refine ⟨front, c, back, hs, ?_⟩
  rw [scanAt_quoted_eq]
  rcases hstop with ⟨hc, hread⟩ | ⟨hc, more, hread⟩
  · rw [hread]
    exact .inl ⟨hc, rfl⟩
  · have hq : c = '\x22' ∨ c = '\x27' := hc ▸ quoteMark_cases s.toList
    rw [hread, ← utf8ByteSize_enclosed hq]
    exact .inr ⟨hc, rfl⟩

/-- The rule for texts in quotes gives a quoted text back, and ends behind it, exactly if the text
has no line break and not both marks in it. Otherwise it finds no second mark because of a line
break, or ends at a mark inside the text. -/
theorem scanAt_spelling_string (s rest : String) (p : Position) :
    let text := String.ofList (Token.string s p).spelling
    let scanned := stringLiteral.scanAt (text ++ rest) 0 p
    (scanned = .ok (some (.string s p, text.utf8ByteSize)) ↔
      '\n' ∉ s.toList ∧ ¬('\x22' ∈ s.toList ∧ '\x27' ∈ s.toList)) ∧
    ('\n' ∈ s.toList ∨ '\x22' ∈ s.toList ∧ '\x27' ∈ s.toList →
      ∃ front c back, s.toList = front ++ c :: back ∧
        (c = '\n' ∧ scanned = .error (.unmatchedQuote (quoteMark s.toList) p) ∨
          c = quoteMark s.toList ∧ scanned = .ok (some
            (.string (String.ofList front) p, (String.ofList front).utf8ByteSize + 2)))) := by
  intro text scanned
  rw [← quoteMark_mem_iff]
  refine ⟨⟨fun hread => ?_, fun ⟨hnl, hmark⟩ => ?_⟩, fun h => scanAt_quoted_breaks h rest p⟩
  · by_contra hcon
    rw [not_and_or, Decidable.not_not, Decidable.not_not] at hcon
    obtain ⟨front, c, back, hs, ⟨-, hstop⟩ | ⟨-, hstop⟩⟩ := scanAt_quoted_breaks hcon rest p
    · cases hstop.symm.trans hread
    · have hshort := hstop.symm.trans hread
      simp only [Except.ok.injEq, Option.some.injEq, Prod.mk.injEq, Token.string, Token.mk.injEq,
        Value.string.injEq, true_and, and_true] at hshort
      have hlen := congrArg List.length hs
      rw [← hshort.1, String.toList_ofList, List.length_append, List.length_cons] at hlen
      omega
  · have hscan : scanned = _ := scanAt_quoted_eq s.toList rest p
    rw [hscan, stringLiteral?_undoes hnl hmark, String.ofList_toList]
    rfl

/-- A text with double marks in front of a single one, and a text with both marks, which is cut
off at the single one. -/
theorem scanAt_spelling_string_marks :
    let hi := String.ofList (Token.string "\"hi\"" ⟨1, 0⟩).spelling
    let feet := "5'4\""
    let text := String.ofList (Token.string feet ⟨1, 0⟩).spelling
    let scanned := stringLiteral.scanAt (text ++ ";") 0 ⟨1, 0⟩
    stringLiteral.scanAt (hi ++ "'") 0 ⟨1, 0⟩ =
        .ok (some (.string "\"hi\"" ⟨1, 0⟩, hi.utf8ByteSize)) ∧
      ('\x22' ∈ feet.toList ∧ '\x27' ∈ feet.toList) ∧
      scanned = .ok (some (.string "5" ⟨1, 0⟩, 3)) ∧
      ∃ front c back, feet.toList = front ++ c :: back ∧
        (c = '\n' ∧ scanned = .error (.unmatchedQuote (quoteMark feet.toList) ⟨1, 0⟩) ∨
          c = quoteMark feet.toList ∧ scanned = .ok (some
            (.string (String.ofList front) ⟨1, 0⟩, (String.ofList front).utf8ByteSize + 2))) := by
  intro hi feet text scanned
  have hboth : '\x22' ∈ feet.toList ∧ '\x27' ∈ feet.toList := by decide
  exact ⟨(scanAt_spelling_string "\"hi\"" "'" ⟨1, 0⟩).1.mpr (by decide), hboth, by decide +kernel,
    (scanAt_spelling_string feet ";" ⟨1, 0⟩).2 (.inr hboth)⟩

end LexRule
end LetScript
