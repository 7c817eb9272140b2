import LetScript.Proofs.Respelling

/-! Reading a text from end to end. In front of a text that is not empty either a lexeme
is taken or reading stops. A run takes one lexeme after another, until the text is used up
or reading stops. -/
namespace LetScript

/-! ### Where reading stops -/

namespace Version

/-- Whether a lexeme of the version can begin with a character. -/
def opens (v : Version) (c : Char) : Bool := v.rules.any (LexRule.opens c)

/-- The texts in front of which a version finds no lexeme, with the error that comes of
it: a quotation mark without a partner on its line, a character that no lexeme begins
with, or a carriage return without a line feed. -/
inductive Stops (v : Version) : List Char → (Position → LexError) → Prop
  | quote {q : Char} {body rest : List Char} : q = '\x22' ∨ q = '\x27' → '\n' ∉ body → q ∉ body →
      startsWith (· != '\n') rest = false → Stops v (q :: body ++ rest) (.unmatchedQuote q)
  | character {c : Char} {rest : List Char} : v.opens c = false →
      Stops v (c :: rest) (.unrecognizedCharacter c)
  | carriageReturn {rest : List Char} : startsWith (· == '\n') rest = false →
      Stops v ('\r' :: rest) (.unrecognizedCharacter '\r')

end Version

theorem LexRule.stringLiteral?_open {q : Char} {body rest : List Char}
    (hq : q = '\x22' ∨ q = '\x27') (hnl : '\n' ∉ body) (hbody : q ∉ body)
    (hrest : startsWith (· != '\n') rest = false) (p : Position) :
    stringLiteral? p (q :: body ++ rest) = .error (.unmatchedQuote q p) := by
  have hinside := forall_mem_inside hnl hbody
  cases rest with
  | nil =>
    have hend : startsWith (fun c => c != q && c != '\n') [] = false := rfl
    obtain ⟨-, hdrop⟩ := takeWhile_append_of_startsWith hinside hend
    simp only [stringLiteral?, List.cons_append, hq, if_true, hdrop]
  | cons c rest =>
    obtain rfl : c = '\n' := by simpa [startsWith] using hrest
    have hstop : startsWith (fun c => c != q && c != '\n') ('\n' :: rest) = false := by
      simp [startsWith]
    obtain ⟨-, hdrop⟩ := takeWhile_append_of_startsWith hinside hstop
    have hne : '\n' ≠ q := by
      rcases hq with rfl | rfl <;> decide
    simp only [stringLiteral?, List.cons_append, hq, if_true, hdrop, hne, if_false]

theorem tokensFrom_of_stops {v : Version} {cs : List Char} {f : Position → LexError}
    (h : v.Stops cs f) (p : Position) : tokensFrom v.rules p cs = .error (f p) := by
  cases h with
  | @quote q body rest hq hnl hbody hrest =>
    have hfilter : v.rules.filter (LexRule.opens q) = [.stringLiteral] := by
      rcases hq with rfl | rfl <;> cases v <;> rfl
    rw [List.cons_append, tokensFrom_cons, firstLexeme_filter, hfilter, firstLexeme, LexRule.scan,
      ← List.cons_append, LexRule.stringLiteral?_open hq hnl hbody hrest]
  | @character c rest hc =>
    have hfilter : v.rules.filter (LexRule.opens c) = [] := by
      simpa [Version.opens] using hc
    rw [tokensFrom_cons, firstLexeme_filter, hfilter, firstLexeme]
  | @carriageReturn rest hrest =>
    have hfilter : v.rules.filter (LexRule.opens '\r') = [.newline] := by cases v <;> rfl
    have hnone : LexRule.newline? ('\r' :: rest) = none := by
      cases rest with
      | nil => rfl
      | cons c rest =>
        have hc : c ≠ '\n' := by simpa [startsWith] using hrest
        simp [LexRule.newline?, hc]
    rw [tokensFrom_cons, firstLexeme_filter, hfilter, firstLexeme, LexRule.scan, hnone, firstLexeme]

theorem LexRule.exists_numberLiteral? {c : Char} (hc : c.isDigit) (cs : List Char) :
    ∃ l, numberLiteral? (c :: cs) = some l := by
  simp only [numberLiteral?, List.takeWhile_cons, hc, if_true, reduceCtorEq, if_false]
  split
  · split <;> exact ⟨_, rfl⟩
  · exact ⟨_, rfl⟩

namespace Version

theorem takes_or_stops_quote (v : Version) {q : Char} (hq : q = '\x22' ∨ q = '\x27')
    (cs : List Char) : (∃ l, v.Takes (q :: cs) l) ∨ ∃ f, v.Stops (q :: cs) f := by
  obtain ⟨body, rest, rfl, hbody, hrest⟩ := exists_run (fun c => c != q && c != '\n') cs
  have hnl : '\n' ∉ body := fun h => by simpa using hbody _ h
  have hmem : q ∉ body := fun h => by simpa using hbody _ h
  cases rest with
  | nil => exact .inr ⟨_, .quote hq hnl hmem rfl⟩
  | cons c rest =>
    by_cases hc : c = q
    · subst hc
      exact .inl ⟨_, .string hq hnl hmem⟩
    · obtain rfl : c = '\n' := by simpa [startsWith, hc] using hrest
      exact .inr ⟨_, .quote hq hnl hmem (by simp [startsWith])⟩

/-- There is always either a lexeme to take or a reason to stop. -/
theorem takes_or_stops (v : Version) (c : Char) (cs : List Char) :
    (∃ l, v.Takes (c :: cs) l) ∨ ∃ f, v.Stops (c :: cs) f := by
  cases hopens : v.opens c with
  | false => exact .inr ⟨_, .character hopens⟩
  | true =>
    obtain ⟨r, hr, hc⟩ := List.any_eq_true.mp hopens
    have mark {m : Kind × Value} {rest : List Char} (hm : m ∈ r.marks)
        (hcs : c :: cs = m.2.spelling ++ rest) : ∃ l, v.Takes (c :: cs) l := by
      rw [hcs]
      exact ⟨_, .mark (List.mem_flatMap.mpr ⟨r, hr, hm⟩)⟩
    have word (hstart : isWordStart c) : ∃ l, v.Takes (c :: cs) l :=
      ⟨_, firstLexeme_eq_some_iff.mp (firstLexeme_word hstart v .start cs)⟩
    cases r with
    | newline =>
      obtain rfl | rfl : c = '\r' ∨ c = '\n' := by simpa [LexRule.opens] using hc
      · cases hrest : startsWith (· == '\n') cs with
        | false => exact .inr ⟨_, .carriageReturn hrest⟩
        | true =>
          obtain ⟨rest, rfl⟩ : ∃ rest, cs = '\n' :: rest := by
            cases cs <;> simp_all [startsWith]
          exact .inl (mark (m := (.newline, .raw "\r\n")) (by simp [LexRule.marks]) rfl)
      · exact .inl (mark (m := (.newline, .raw "\n")) (by simp [LexRule.marks]) rfl)
    | whitespace =>
      obtain rfl | rfl : c = ' ' ∨ c = '\t' := by simpa [LexRule.opens] using hc
      · exact .inl (mark (m := (.whitespace, .raw " ")) (by simp [LexRule.marks]) rfl)
      · exact .inl (mark (m := (.whitespace, .raw "\t")) (by simp [LexRule.marks]) rfl)
    | stringLiteral => exact v.takes_or_stops_quote (by simpa [LexRule.opens] using hc) cs
    | numberLiteral =>
      obtain ⟨l, hl⟩ := LexRule.exists_numberLiteral? hc cs
      exact .inl ⟨l, takes_number hl⟩
    | operator o =>
      obtain rfl : c = o.symbol := by simpa [LexRule.opens] using hc
      exact .inl (mark (m := (.operator, .operator o)) (by simp [LexRule.marks]) rfl)
    | symbol d k =>
      obtain rfl : c = d := by simpa [LexRule.opens] using hc
      have hcs : c :: cs = (Value.raw (String.singleton c)).spelling ++ cs := by
        simp [Value.spelling]
      exact .inl (mark (m := (k, .raw (String.singleton c))) (by simp [LexRule.marks]) hcs)
    | keyword k => exact .inl (word hc)
    | booleanLiteral => exact .inl (word hc)
    | typeName t => exact .inl (word hc)
    | builtin f => exact .inl (word hc)
    | identifier => exact .inl (word hc)

/-! ### Whole runs -/

/-- How a version reads a text that begins at a place. -/
inductive Reads (v : Version) : Position → List Char → Except LexError (List Token) → Prop
  | done {p : Position} : Reads v p [] (.ok [])
  | stops {p : Position} {cs : List Char} {f : Position → LexError} : v.Stops cs f →
      Reads v p cs (.error (f p))
  | takes {p : Position} {cs : List Char} {l : Lexeme} {r : Except LexError (List Token)} :
      v.Takes cs l → Reads v (p.advance l.text) l.rest r →
      Reads v p cs (r.map fun ts => l.token p :: ts)

theorem Takes.heads {v : Version} {cs : List Char} {l : Lexeme} (h : v.Takes cs l) : l.Heads cs :=
  firstLexeme_heads (firstLexeme_eq_some_iff (p := .start).mpr h)

theorem reads_tokensFrom (v : Version) (p : Position) (cs : List Char) :
    v.Reads p cs (tokensFrom v.rules p cs) := by
  cases cs with
  | nil =>
    rw [tokensFrom]
    exact .done
  | cons c cs =>
    obtain ⟨l, hl⟩ | ⟨f, hf⟩ := v.takes_or_stops c cs
    · rw [tokensFrom_of_takes hl]
      exact .takes hl (reads_tokensFrom v (p.advance l.text) l.rest)
    · rw [tokensFrom_of_stops hf]
      exact .stops hf
termination_by cs.length
decreasing_by exact hl.heads.length_lt

end Version

/-- Runs are what the table of a version computes. -/
theorem tokensFrom_eq_iff {v : Version} {p : Position} {cs : List Char}
    {r : Except LexError (List Token)} : tokensFrom v.rules p cs = r ↔ v.Reads p cs r := by
  refine ⟨fun h => h ▸ v.reads_tokensFrom p cs, fun h => ?_⟩
  induction h with
  | done => rw [tokensFrom]
  | stops hf => exact tokensFrom_of_stops hf _
  | takes hl _ ih => rw [tokensFrom_of_takes hl, ih]

theorem tokenize_of_ofId {version : String} {v : Version} (hv : Version.ofId version = .ok v)
    (source : String) : tokenize source version = tokensFrom v.rules .start source.toList := by
  simp [tokenize, hv, Version.tokenize]

theorem tokenize_of_unsupported {version : String} {e : LexError}
    (hv : Version.ofId version = .error e) (source : String) : tokenize source version = .error e := by
  simp [tokenize, hv]

end LetScript
