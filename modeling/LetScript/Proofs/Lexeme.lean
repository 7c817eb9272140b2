import LetScript.Lexical.Tokenize
import LetScript.Proofs.Number
import LetScript.Token

/-! What a table of rules takes from the front of a text. The first character
decides which rules can apply, and of the rules for words the whole word at the
front decides. -/
namespace LetScript

/-! ### Classes of characters -/

theorem isWordPart_of_isWordStart {c : Char} (h : isWordStart c) : isWordPart c := by
  simp only [isWordStart, isWordPart, isAlphanumeric, Bool.or_eq_true] at h ⊢
  grind

theorem toNat_of_isDigit {c : Char} (h : c.isDigit) : 48 ≤ c.toNat ∧ c.toNat ≤ 57 := by
  simpa [Char.isDigit, UInt32.le_iff_toNat_le] using h

theorem isWordPart_of_isDigit {c : Char} (h : c.isDigit) : isWordPart c := by
  obtain ⟨hlow, hhigh⟩ := toNat_of_isDigit h
  have : isNumeric c := by
    rw [isNumeric, numericRanges, inRanges, if_neg (by omega), if_pos hhigh]
  simp [isWordPart, isAlphanumeric, this]

theorem isWordStart_of_isDigit {c : Char} (h : c.isDigit) : isWordStart c = false := by
  obtain ⟨-, hhigh⟩ := toNat_of_isDigit h
  have halpha : isAlphabetic c = false := by
    rw [isAlphabetic, alphabeticRanges, inRanges, if_pos (by omega)]
  have hne : c ≠ '_' := by
    rintro rfl
    simp at hhigh
  simp [isWordStart, halpha, hne]

/-! ### Words -/

theorem afterWord?_eq {word : List Char} (hword : ∀ c ∈ word, isWordPart c) (cs : List Char) :
    afterWord? word cs =
      if cs.takeWhile isWordPart = word then some (cs.dropWhile isWordPart) else none := by
  induction word generalizing cs with
  | nil =>
    cases cs with
    | nil => rfl
    | cons c cs =>
      simp only [afterWord?, afterText?]
      cases hc : isWordPart c <;> simp [hc]
  | cons w ws ih =>
    cases cs with
    | nil => simp [afterWord?, afterText?]
    | cons c cs =>
      by_cases hwc : w = c
      · have hc : isWordPart c := hword c (by simp [hwc])
        have htail := ih (fun d hd => hword d (by simp [hd])) cs
        simp only [afterWord?] at htail
        simp only [afterWord?, afterText?, hwc, if_true, htail, List.takeWhile_cons, hc,
          List.dropWhile_cons, List.cons.injEq, true_and]
      · have hfront : (c :: cs).takeWhile isWordPart ≠ w :: ws := by
          rw [List.takeWhile_cons]
          split
          · exact fun h => hwc (List.cons.inj h).1.symm
          · exact fun h => by cases h
        simp [afterWord?, afterText?, hwc, hfront]

/-- A word with a meaning of its own. -/
structure FixedWord where
  word : String
  kind : Kind
  value : Value

/-- The words that a rule knows. -/
def LexRule.words : LexRule → List FixedWord
  | .keyword k => [⟨k.word, k.kind, .raw k.word⟩]
  | .booleanLiteral => [⟨"true", .boolean, .boolean true⟩, ⟨"false", .boolean, .boolean false⟩]
  | .typeName t => t.spellings.map fun w => ⟨w, .typeName, .typeName t⟩
  | .builtin f => [⟨f.name, .builtin, .builtin f⟩]
  | _ => []

theorem LexRule.words_wordPart (r : LexRule) :
    ∀ e ∈ r.words, ∀ c ∈ e.word.toList, isWordPart c := by
  have hall : ∀ e ∈ r.words, e.word.toList.all isWordPart := by
    cases r with
    | keyword k => cases k <;> decide
    | booleanLiteral => decide
    | typeName t => cases t <;> decide
    | builtin f => cases f <;> decide
    | _ => simp [words]
  exact fun e he => List.all_eq_true.mp (hall e he)

/-- The lexeme of the word at the front of a text. -/
def FixedWord.lexeme (e : FixedWord) (cs : List Char) : Lexeme :=
  ⟨e.kind, e.value, e.word.toList, cs.dropWhile isWordPart⟩

theorem LexRule.word?_eq (e : FixedWord) (he : ∀ c ∈ e.word.toList, isWordPart c) (cs : List Char) :
    word? e.word e.kind e.value cs =
      if e.word.toList = cs.takeWhile isWordPart then some (e.lexeme cs) else none := by
  rw [word?, afterWord?_eq he]
  split
  · rename_i h
    simp [h, FixedWord.lexeme]
  · rename_i h
    simp [Ne.symm h]

/-- Of the words of a rule, the one that stands at the front of a text. -/
def wordAt? (es : List FixedWord) (cs : List Char) : Option FixedWord :=
  es.find? fun e => e.word.toList = cs.takeWhile isWordPart

theorem LexRule.findSome?_word? {es : List FixedWord}
    (hes : ∀ e ∈ es, ∀ c ∈ e.word.toList, isWordPart c) (cs : List Char) :
    es.findSome? (fun e => word? e.word e.kind e.value cs) =
      (wordAt? es cs).map fun e => e.lexeme cs := by
  induction es with
  | nil => rfl
  | cons e es ih =>
    rw [List.findSome?_cons, word?_eq e (hes e (by simp)), ih fun d hd => hes d (by simp [hd]),
      wordAt?, wordAt?, List.find?_cons]
    by_cases he : e.word.toList = cs.takeWhile isWordPart <;> simp [he]

/-- A rule that knows words takes the one at the front of the text, if it is
one of them. -/
theorem LexRule.scan_words {r : LexRule} (hr : r.words ≠ []) (p : Position) (cs : List Char) :
    r.scan p cs = .ok ((wordAt? r.words cs).map fun e => e.lexeme cs) := by
  rw [← findSome?_word? r.words_wordPart]
  cases r with
  | booleanLiteral =>
    simp only [scan, words, List.findSome?_cons, List.findSome?_nil]
    cases word? "true" .boolean (.boolean true) cs <;>
      cases word? "false" .boolean (.boolean false) cs <;> rfl
  | typeName t => simp [scan, words, List.findSome?_map, Function.comp_def]
  | keyword k =>
    simp only [scan, words, List.findSome?_cons, List.findSome?_nil]
    cases word? k.word k.kind (.raw k.word) cs <;> rfl
  | builtin f =>
    simp only [scan, words, List.findSome?_cons, List.findSome?_nil]
    cases word? f.name .builtin (.builtin f) cs <;> rfl
  | _ => simp [words] at hr

/-! ### The first character -/

namespace LexRule

/-- Whether a lexeme of the rule can begin with a character. -/
def opens (c : Char) : LexRule → Bool
  | newline => c == '\r' || c == '\n'
  | whitespace => c == ' ' || c == '\t'
  | stringLiteral => c == '\x22' || c == '\x27'
  | numberLiteral => c.isDigit
  | operator o => c == o.symbol
  | symbol d _ => c == d
  | _ => isWordStart c

theorem words_wordStart (r : LexRule) : ∀ e ∈ r.words, e.word.toList.head?.any isWordStart := by
  cases r with
  | keyword k => cases k <;> decide
  | booleanLiteral => decide
  | typeName t => cases t <;> decide
  | builtin f => cases f <;> decide
  | _ => simp [words]

theorem wordAt?_eq_none {c : Char} (hc : isWordStart c = false) (r : LexRule) (cs : List Char) :
    wordAt? r.words (c :: cs) = none := by
  rw [wordAt?, List.find?_eq_none]
  intro e he hfront
  have hstart := words_wordStart r e he
  rw [of_decide_eq_true hfront, List.takeWhile_cons] at hstart
  split at hstart
  · simp [hc] at hstart
  · simp at hstart

theorem scan_of_opens_eq_false {r : LexRule} {c : Char} (h : r.opens c = false) (p : Position)
    (cs : List Char) : r.scan p (c :: cs) = .ok none := by
  have hword (hw : r.words ≠ []) (hc : isWordStart c = false) : r.scan p (c :: cs) = .ok none := by
    rw [scan_words hw, wordAt?_eq_none hc]
    rfl
  cases r with
  | newline =>
    simp only [opens, Bool.or_eq_false_iff, beq_eq_false_iff_ne] at h
    rw [scan, newline?]
    all_goals simp_all
  | whitespace =>
    simp only [opens, Bool.or_eq_false_iff, beq_eq_false_iff_ne] at h
    rw [scan, whitespace?]
    all_goals simp_all
  | stringLiteral =>
    simp only [opens, Bool.or_eq_false_iff, beq_eq_false_iff_ne] at h
    simp [scan, stringLiteral?, h]
  | numberLiteral => simp [scan, numberLiteral?, show c.isDigit = false from h]
  | keyword k => exact hword (by simp [words]) h
  | booleanLiteral => exact hword (by simp [words]) h
  | typeName t =>
    cases t with
    | any => rfl
    | _ => exact hword (by simp [words, TypeName.spellings]) h
  | builtin f => exact hword (by simp [words]) h
  | identifier => simp [scan, identifier?, show isWordStart c = false from h]
  | operator o => simp_all [opens, scan, character?]
  | symbol d k => simp_all [opens, scan, character?]

end LexRule

/-- Rules that do not apply can be left out. -/
theorem firstLexeme_filter_of {p : Position} {cs : List Char} {f : LexRule → Bool}
    (hf : ∀ r : LexRule, f r = false → r.scan p cs = .ok none) (rs : List LexRule) :
    firstLexeme p cs rs = firstLexeme p cs (rs.filter f) := by
  induction rs with
  | nil => rfl
  | cons r rs ih =>
    by_cases hr : f r
    · rw [List.filter_cons_of_pos hr, firstLexeme, firstLexeme, ih]
    · rw [List.filter_cons_of_neg hr, firstLexeme, hf r (Bool.eq_false_iff.mpr hr), ih]

/-- Only the rules that can open with the first character matter. -/
theorem firstLexeme_filter (p : Position) (c : Char) (cs : List Char) (rs : List LexRule) :
    firstLexeme p (c :: cs) rs = firstLexeme p (c :: cs) (rs.filter (LexRule.opens c)) :=
  firstLexeme_filter_of (fun _ hr => LexRule.scan_of_opens_eq_false hr p cs) rs

theorem firstLexeme_digit {c : Char} (hc : c.isDigit) (v : Version) (p : Position)
    (cs : List Char) :
    firstLexeme p (c :: cs) v.rules = .ok (LexRule.numberLiteral? (c :: cs)) := by
  have hne {d : Char} (hd : d.isDigit = false) : c ≠ d := by
    rintro rfl
    simp [hc] at hd
  have hfilter : v.rules.filter (LexRule.opens c) = [.numberLiteral] := by
    cases v <;> simp (disch := decide) [Version.rules, List.filter_cons, LexRule.opens,
      Operator.symbol, hne, hc, isWordStart_of_isDigit hc]
  rw [firstLexeme_filter, hfilter]
  simp only [firstLexeme, LexRule.scan]
  cases LexRule.numberLiteral? (c :: cs) <;> rfl

theorem firstLexeme_quote {v : Version} {q : Char} {cs : List Char} {p : Position} {l : Lexeme}
    (hq : q = '\x22' ∨ q = '\x27') (h : LexRule.stringLiteral? p (q :: cs) = .ok (some l)) :
    firstLexeme p (q :: cs) v.rules = .ok (some l) := by
  have hfilter : v.rules.filter (LexRule.opens q) = [.stringLiteral] := by
    rcases hq with rfl | rfl <;> cases v <;> rfl
  rw [firstLexeme_filter, hfilter]
  simp [firstLexeme, LexRule.scan, h]

/-- The words with a fixed meaning in a version. -/
def Version.reserved (v : Version) : List FixedWord := v.rules.flatMap LexRule.words

/-- What a word stands for: its fixed meaning, and a name if it has none. -/
def Version.meaning (v : Version) (w : List Char) : Kind × Value :=
  match v.reserved.find? fun e => e.word.toList = w with
  | some e => (e.kind, e.value)
  | none => (.identifier, .raw (String.ofList w))

/-- The rules in front of the one for names leave a name to it. -/
theorem firstLexeme_name {c : Char} {cs : List Char} (hc : isWordStart c) {rs : List LexRule}
    (hrs : ∀ r ∈ rs, r.words = [] → r.opens c = false) (p : Position) (after : List LexRule) :
    firstLexeme p (c :: cs) (rs ++ .identifier :: after) =
      .ok (some (match wordAt? (rs.flatMap LexRule.words) (c :: cs) with
        | some e => e.lexeme (c :: cs)
        | none => ⟨.identifier, .raw (String.ofList ((c :: cs).takeWhile isWordPart)),
            (c :: cs).takeWhile isWordPart, (c :: cs).dropWhile isWordPart⟩)) := by
  induction rs with
  | nil =>
    simp [firstLexeme, LexRule.scan, LexRule.identifier?, hc, wordAt?,
      isWordPart_of_isWordStart hc]
  | cons r rs ih =>
    have ih := ih fun r' hr' => hrs r' (by simp [hr'])
    rw [List.cons_append, firstLexeme, List.flatMap_cons, wordAt?, List.find?_append, ← wordAt?,
      ← wordAt?]
    by_cases hw : r.words = []
    · rw [LexRule.scan_of_opens_eq_false (hrs r (by simp) hw), hw]
      exact ih
    · rw [LexRule.scan_words hw]
      cases wordAt? r.words (c :: cs) with
      | some e => rfl
      | none => exact ih

theorem firstLexeme_word {c : Char} (hc : isWordStart c) (v : Version) (p : Position)
    (cs : List Char) :
    firstLexeme p (c :: cs) v.rules =
      .ok (some ⟨(v.meaning ((c :: cs).takeWhile isWordPart)).1,
        (v.meaning ((c :: cs).takeWhile isWordPart)).2, (c :: cs).takeWhile isWordPart,
        (c :: cs).dropWhile isWordPart⟩) := by
  have hne {d : Char} (hd : isWordStart d = false) : c ≠ d := by
    rintro rfl
    simp [hc] at hd
  have hdigit : c.isDigit = false := by
    cases h : c.isDigit with
    | true => simp [isWordStart_of_isDigit h] at hc
    | false => rfl
  have hbefore : ∃ rs after, v.rules = rs ++ .identifier :: after ∧
      rs.flatMap LexRule.words = v.reserved ∧ ∀ r ∈ rs, r.words = [] → r.opens c = false := by
    cases v
    · refine ⟨Version.v10.rules.take 8, Version.v10.rules.drop 9, rfl, rfl, ?_⟩
      simp (disch := decide) [Version.rules, LexRule.words, LexRule.opens, hne, hdigit,
        TypeName.spellings]
    · refine ⟨Version.v11.rules.take 15, Version.v11.rules.drop 16, rfl, rfl, ?_⟩
      simp (disch := decide) [Version.rules, LexRule.words, LexRule.opens, hne, hdigit,
        TypeName.spellings]
  obtain ⟨rs, after, hrules, hwords, hrs⟩ := hbefore
  rw [hrules, firstLexeme_name hc hrs, hwords, Version.meaning, wordAt?]
  cases hfind : v.reserved.find? fun e => e.word.toList = (c :: cs).takeWhile isWordPart with
  | none => rfl
  | some e =>
    have : e.word.toList = (c :: cs).takeWhile isWordPart := by simpa using List.find?_some hfind
    simp [FixedWord.lexeme, this]

/-! ### Signs and blanks -/

/-- The kinds and values of the fixed texts, words apart, that a rule knows. -/
def LexRule.marks : LexRule → List (Kind × Value)
  | .newline => [(.newline, .raw "\n"), (.newline, .raw "\r\n")]
  | .whitespace => [(.whitespace, .raw " "), (.whitespace, .raw "\t")]
  | .operator o => [(.operator, .operator o)]
  | .symbol c k => [(k, .raw (String.singleton c))]
  | _ => []

def Version.marks (v : Version) : List (Kind × Value) := v.rules.flatMap LexRule.marks

theorem LexRule.scan_mark {r : LexRule} (hr : r.marks ≠ []) {p : Position} {cs : List Char}
    {l : Lexeme} (h : r.scan p cs = .ok (some l)) :
    ∃ m ∈ r.marks, ∃ rest, cs = m.2.spelling ++ rest ∧ l = ⟨m.1, m.2, m.2.spelling, rest⟩ := by
  cases r with
  | newline =>
    simp only [scan, Except.ok.injEq] at h
    unfold newline? at h
    split at h
    · exact ⟨(.newline, .raw "\r\n"), by simp [marks], _, rfl, (Option.some.inj h).symm⟩
    · exact ⟨(.newline, .raw "\n"), by simp [marks], _, rfl, (Option.some.inj h).symm⟩
    · cases h
  | whitespace =>
    simp only [scan, Except.ok.injEq] at h
    unfold whitespace? at h
    split at h
    · exact ⟨(.whitespace, .raw " "), by simp [marks], _, rfl, (Option.some.inj h).symm⟩
    · exact ⟨(.whitespace, .raw "\t"), by simp [marks], _, rfl, (Option.some.inj h).symm⟩
    · cases h
  | operator o =>
    cases cs with
    | nil => simp [scan, character?] at h
    | cons d cs =>
      simp only [scan, character?, Except.ok.injEq, Option.ite_none_right_eq_some] at h
      obtain ⟨rfl, h⟩ := h
      exact ⟨(.operator, .operator o), by simp [marks], cs, rfl, (Option.some.inj h).symm⟩
  | symbol c k =>
    cases cs with
    | nil => simp [scan, character?] at h
    | cons d cs =>
      simp only [scan, character?, Except.ok.injEq, Option.ite_none_right_eq_some] at h
      obtain ⟨rfl, h⟩ := h
      refine ⟨(k, .raw (String.singleton d)), by simp [marks], cs, ?_, ?_⟩
      · simp [Value.spelling]
      · simpa [Value.spelling] using (Option.some.inj h).symm
  | _ => simp [marks] at hr

theorem firstLexeme_mark {v : Version} {m : Kind × Value} (hm : m ∈ v.marks) (p : Position)
    (rest : List Char) :
    firstLexeme p (m.2.spelling ++ rest) v.rules = .ok (some ⟨m.1, m.2, m.2.spelling, rest⟩) := by
  cases v <;>
  · simp only [Version.marks, Version.rules, List.flatMap_cons, LexRule.marks, List.nil_append,
      List.cons_append, List.flatMap_nil, List.mem_cons, List.not_mem_nil, or_false] at hm
    rcases hm with rfl | rfl | rfl | rfl | rfl | rfl | rfl | rfl | rfl | rfl | rfl | rfl | rfl |
      rfl | rfl
    all_goals rfl

/-! ### The lexeme at the front -/

/-- Whether a text begins with a character of a class. -/
def startsWith (f : Char → Bool) (cs : List Char) : Bool := cs.head?.any f

theorem exists_run (f : Char → Bool) (cs : List Char) :
    ∃ run rest, cs = run ++ rest ∧ (∀ c ∈ run, f c) ∧ startsWith f rest = false := by
  refine ⟨cs.takeWhile f, cs.dropWhile f, List.takeWhile_append_dropWhile.symm,
    List.all_eq_true.mp List.all_takeWhile, ?_⟩
  have := List.head?_dropWhile_not f cs
  rw [startsWith]
  cases h : (cs.dropWhile f).head? <;> simp_all

theorem takeWhile_append_of_startsWith {f : Char → Bool} {cs rest : List Char}
    (hcs : ∀ c ∈ cs, f c) (hrest : startsWith f rest = false) :
    (cs ++ rest).takeWhile f = cs ∧ (cs ++ rest).dropWhile f = rest := by
  rw [List.takeWhile_append_of_pos hcs, List.dropWhile_append_of_pos hcs]
  cases rest with
  | nil => simp
  | cons c rest => simp_all [startsWith]

/-- The lexeme that a version takes from the front of a text. A word and the
digits of a number end where the text after them does not go on with them. -/
inductive Version.Takes (v : Version) : List Char → Lexeme → Prop
  | mark {m : Kind × Value} {rest : List Char} : m ∈ v.marks →
      Takes v (m.2.spelling ++ rest) ⟨m.1, m.2, m.2.spelling, rest⟩
  | string {q : Char} {body rest : List Char} : q = '\x22' ∨ q = '\x27' → '\n' ∉ body → q ∉ body →
      Takes v (q :: body ++ q :: rest)
        ⟨.string, .string (String.ofList body), q :: body ++ [q], rest⟩
  | number {whole fraction rest : List Char} : whole ≠ [] → (∀ c ∈ whole, c.isDigit) →
      (∀ c ∈ fraction, c.isDigit) → startsWith Char.isDigit rest = false →
      (fraction = [] → ∀ more, rest = '.' :: more → startsWith Char.isDigit more = false) →
      Takes v (Binary64.written whole fraction ++ rest)
        ⟨.number, .number (.ofDigits whole fraction), Binary64.written whole fraction, rest⟩
  | word {c : Char} {w rest : List Char} : isWordStart c → (∀ d ∈ w, isWordPart d) →
      startsWith isWordPart rest = false →
      Takes v (c :: w ++ rest) ⟨(v.meaning (c :: w)).1, (v.meaning (c :: w)).2, c :: w, rest⟩

theorem forall_mem_inside {q : Char} {body : List Char} (hnl : '\n' ∉ body) (hbody : q ∉ body) :
    ∀ c ∈ body, (c != q && c != '\n') := by
  intro c hc
  simp only [Bool.and_eq_true, bne_iff_ne]
  exact ⟨fun h => hbody (h ▸ hc), fun h => hnl (h ▸ hc)⟩

theorem LexRule.stringLiteral?_quoted {q : Char} {body : List Char} (hq : q = '\x22' ∨ q = '\x27')
    (hnl : '\n' ∉ body) (hbody : q ∉ body) (p : Position) (rest : List Char) :
    stringLiteral? p (q :: body ++ q :: rest) =
      .ok (some ⟨.string, .string (String.ofList body), q :: body ++ [q], rest⟩) := by
  have hquote : startsWith (fun c => c != q && c != '\n') (q :: rest) = false := by
    simp [startsWith]
  obtain ⟨htake, hdrop⟩ := takeWhile_append_of_startsWith (forall_mem_inside hnl hbody) hquote
  simp [stringLiteral?, hq, htake, hdrop]

theorem Version.takes_string {v : Version} {p : Position} {cs : List Char} {l : Lexeme}
    (h : LexRule.stringLiteral? p cs = .ok (some l)) : v.Takes cs l := by
  cases cs with
  | nil => simp [LexRule.stringLiteral?] at h
  | cons q cs =>
    obtain ⟨body, rest, rfl, hbody, hrest⟩ := exists_run (fun c => c != q && c != '\n') cs
    obtain ⟨htake, hdrop⟩ := takeWhile_append_of_startsWith hbody hrest
    simp only [LexRule.stringLiteral?, htake, hdrop] at h
    split at h
    · rename_i hq
      split at h
      · cases h
      · split at h
        · rename_i hc
          obtain rfl : _ = l := by simpa using h
          rw [hc]
          exact .string hq (fun hmem => by simpa using hbody _ hmem)
            (fun hmem => by simpa using hbody _ hmem)
        · cases h
    · cases h

theorem LexRule.numberLiteral?_written {whole fraction rest : List Char} (hne : whole ≠ [])
    (hwhole : ∀ c ∈ whole, c.isDigit) (hfraction : ∀ c ∈ fraction, c.isDigit)
    (hrest : startsWith Char.isDigit rest = false)
    (hpoint : fraction = [] → ∀ more, rest = '.' :: more → startsWith Char.isDigit more = false) :
    numberLiteral? (Binary64.written whole fraction ++ rest) =
      some ⟨.number, .number (.ofDigits whole fraction), Binary64.written whole fraction,
        rest⟩ := by
  by_cases hf : fraction = []
  · obtain ⟨htake, hdrop⟩ := takeWhile_append_of_startsWith hwhole hrest
    subst hf
    simp only [Binary64.written, if_true, numberLiteral?, htake, hdrop, hne, if_false]
    split
    · rename_i more
      have : more.takeWhile Char.isDigit = [] := by
        cases more with
        | nil => rfl
        | cons c more =>
          have : c.isDigit = false := by simpa [startsWith] using hpoint rfl _ rfl
          simp [this]
      simp [this]
    · rfl
  · have hdot : startsWith Char.isDigit ('.' :: (fraction ++ rest)) = false := by
      simp [startsWith]
    obtain ⟨htake, hdrop⟩ := takeWhile_append_of_startsWith hwhole hdot
    obtain ⟨htake', hdrop'⟩ := takeWhile_append_of_startsWith hfraction hrest
    simp [Binary64.written, hf, numberLiteral?, htake, hdrop, hne, htake', hdrop']

theorem Version.takes_number {v : Version} {cs : List Char} {l : Lexeme}
    (h : LexRule.numberLiteral? cs = some l) : v.Takes cs l := by
  obtain ⟨whole, rest, rfl, hwhole, hrest⟩ := exists_run Char.isDigit cs
  have hne : whole ≠ [] := by
    rintro rfl
    obtain ⟨htake, -⟩ := takeWhile_append_of_startsWith hwhole hrest
    rw [LexRule.numberLiteral?, htake] at h
    simp at h
  by_cases hpoint : ∃ more, rest = '.' :: more ∧ startsWith Char.isDigit more
  · obtain ⟨more, rfl, hmore⟩ := hpoint
    obtain ⟨fraction, tail, rfl, hfraction, htail⟩ := exists_run Char.isDigit more
    have hf : fraction ≠ [] := by
      rintro rfl
      rw [List.nil_append, htail] at hmore
      cases hmore
    have hcs : whole ++ '.' :: (fraction ++ tail) = Binary64.written whole fraction ++ tail := by
      simp [Binary64.written, hf]
    rw [hcs] at h ⊢
    rw [LexRule.numberLiteral?_written hne hwhole hfraction htail fun h => absurd h hf] at h
    exact Option.some.inj h ▸ .number hne hwhole hfraction htail fun h => absurd h hf
  · have hpoint (more : List Char) (h : rest = '.' :: more) :
        startsWith Char.isDigit more = false := by
      rw [← Bool.not_eq_true]
      exact fun hmore => hpoint ⟨more, h, hmore⟩
    have htakes : v.Takes (Binary64.written whole [] ++ rest) _ :=
      .number hne hwhole (by simp) hrest fun _ => hpoint
    rw [show whole = Binary64.written whole [] from rfl, LexRule.numberLiteral?_written hne hwhole
      (by simp) hrest fun _ => hpoint] at h
    exact Option.some.inj h ▸ htakes

theorem firstLexeme_mem {p : Position} {cs : List Char} {rs : List LexRule} {l : Lexeme}
    (h : firstLexeme p cs rs = .ok (some l)) : ∃ r ∈ rs, r.scan p cs = .ok (some l) := by
  induction rs with
  | nil => simp [firstLexeme] at h
  | cons r rs ih =>
    simp only [firstLexeme] at h
    split at h
    · cases h
    · rename_i hr
      exact ⟨r, by simp, by rw [hr, h]⟩
    · obtain ⟨r', hr', hscan⟩ := ih h
      exact ⟨r', by simp [hr'], hscan⟩

/-- The table of a version takes exactly the lexemes of that version. -/
theorem firstLexeme_eq_some_iff {v : Version} {p : Position} {cs : List Char} {l : Lexeme} :
    firstLexeme p cs v.rules = .ok (some l) ↔ v.Takes cs l := by
  constructor
  · intro h
    obtain ⟨r, hr, hscan⟩ := firstLexeme_mem h
    have hmark (hm : r.marks ≠ []) : v.Takes cs l := by
      obtain ⟨m, hmem, rest, rfl, rfl⟩ := LexRule.scan_mark hm hscan
      exact .mark (List.mem_flatMap.mpr ⟨r, hr, hmem⟩)
    have hword (hw : ∀ c, r.opens c = isWordStart c) : v.Takes cs l := by
      cases cs with
      | nil => simpa using (LexRule.scan_heads hscan).length_lt
      | cons c cs =>
        have hc : isWordStart c := by
          rw [← hw, ← Bool.not_eq_false]
          intro hc
          rw [LexRule.scan_of_opens_eq_false hc] at hscan
          cases hscan
        obtain ⟨w, rest, rfl, hpart, hrest⟩ := exists_run isWordPart cs
        have hall : ∀ d ∈ c :: w, isWordPart d := by
          simpa using ⟨isWordPart_of_isWordStart hc, hpart⟩
        obtain ⟨htake, hdrop⟩ := takeWhile_append_of_startsWith hall hrest
        rw [firstLexeme_word hc, ← List.cons_append, htake, hdrop] at h
        obtain rfl : _ = l := by simpa using h
        exact .word hc hpart hrest
    cases r with
    | newline => exact hmark (by simp [LexRule.marks])
    | whitespace => exact hmark (by simp [LexRule.marks])
    | operator o => exact hmark (by simp [LexRule.marks])
    | symbol c k => exact hmark (by simp [LexRule.marks])
    | stringLiteral => exact Version.takes_string hscan
    | numberLiteral => exact Version.takes_number (Except.ok.inj hscan)
    | keyword k => exact hword fun _ => rfl
    | booleanLiteral => exact hword fun _ => rfl
    | typeName t => exact hword fun _ => rfl
    | builtin f => exact hword fun _ => rfl
    | identifier => exact hword fun _ => rfl
  · intro h
    cases h with
    | mark hm => exact firstLexeme_mark hm p _
    | string hq hnl hbody =>
      exact firstLexeme_quote hq (LexRule.stringLiteral?_quoted hq hnl hbody p _)
    | @number whole _ _ hne hwhole hfraction hrest hpoint =>
      have hlex := LexRule.numberLiteral?_written hne hwhole hfraction hrest hpoint
      obtain ⟨c, ds, rfl⟩ := List.exists_cons_of_ne_nil hne
      rw [Binary64.written_cons, List.cons_append] at hlex ⊢
      rw [firstLexeme_digit (hwhole c (by simp)), hlex]
    | @word c w _ hc hpart hrest =>
      have hall : ∀ d ∈ c :: w, isWordPart d := by
        simpa using ⟨isWordPart_of_isWordStart hc, hpart⟩
      obtain ⟨htake, hdrop⟩ := takeWhile_append_of_startsWith hall hrest
      rw [List.cons_append, firstLexeme_word hc, ← List.cons_append, htake, hdrop]

end LetScript
