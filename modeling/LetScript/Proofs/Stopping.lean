import LetScript.Proofs.Locality

/-! Where reading stops. Main statement: a text that is refused has a part in front that is read
by itself, and the error is about the character behind that part. -/
namespace LetScript

/-- A lexeme stays the same if the text behind it ends earlier. -/
theorem Version.Takes.cutOff {v : Version} {cs : List Char} {l : Lexeme} (h : v.Takes cs l)
    {rest : List Char} (hrest : rest <+: l.rest) :
    v.Takes (l.text ++ rest) { l with rest := rest } :=
  h.withRest (c := ' ') (b := []) (by decide) (by decide) (hrest.trans (List.prefix_append _ _))

/-- What comes before the first error is read by itself, although its lexemes were found in
view of what comes behind them. -/
theorem Version.Reads.exists_stops {v : Version} {p : Position} {cs : List Char}
    {r : Except LexError (List Token)} (h : v.Reads p cs r) :
    ∀ e, r = .error e → ∃ u rest f tu, cs = u ++ rest ∧ v.Reads p u (.ok tu) ∧ v.Stops rest f ∧
      e = f (p.advance u) := by
  induction h with
  | done =>
    rintro e ⟨⟩
  | @stops p cs f hstops =>
    rintro e ⟨⟩
    exact ⟨[], cs, f, [], rfl, .done, hstops, rfl⟩
  | @takes p cs l r hl _ ih =>
    intro e he
    cases r with
    | ok ts => cases he
    | error e' =>
      cases he
      obtain ⟨u, rest, f, tu, hrest, hu, hstops, rfl⟩ := ih e rfl
      have hfront : v.Takes (l.text ++ u) { l with rest := u } :=
        hl.cutOff (hrest ▸ List.prefix_append u rest)
      refine ⟨l.text ++ u, rest, f, l.token p :: tu, ?_, .takes hfront hu, hstops, ?_⟩
      · rw [List.append_assoc, ← hrest, hl.heads.2]
      · rw [Position.advance_append]

/-! ### The character that is refused -/

/-- Why no lexeme begins with the character `c` in front of the text `w`: it is a quotation mark
without a partner on its line, or no rule applies. -/
inductive Version.Refuses (v : Version) (c : Char) (w : List Char) : (Position → LexError) → Prop
  | quote : c = '\x22' ∨ c = '\x27' → c ∉ w.takeWhile (· != '\n') →
      Refuses v c w (.unmatchedQuote c)
  | character : (∀ r ∈ v.rules, ∀ p, r.scan p (c :: w) = .ok none) →
      Refuses v c w (.unrecognizedCharacter c)

theorem scan_carriageReturn {v : Version} {w : List Char} (hw : startsWith (· == '\n') w = false)
    {r : LexRule} (hr : r ∈ v.rules) (p : Position) : r.scan p ('\r' :: w) = .ok none := by
  have honly : ∀ r ∈ v.rules, r.opens '\r' → r = .newline := by cases v <;> decide
  by_cases hopens : r.opens '\r'
  · obtain rfl := honly r hr hopens
    cases w with
    | nil => rfl
    | cons c w =>
      have hc : c ≠ '\n' := by simpa [startsWith] using hw
      simp [LexRule.scan, LexRule.newline?, hc]
  · exact LexRule.scan_of_opens_eq_false (Bool.eq_false_iff.mpr hopens) p w

theorem Version.Stops.exists_refuses {v : Version} {cs : List Char} {f : Position → LexError}
    (h : v.Stops cs f) : ∃ c w, cs = c :: w ∧ v.Refuses c w f := by
  cases h with
  | @quote q body rest hq hnl hbody hrest =>
    refine ⟨q, body ++ rest, rfl, .quote hq ?_⟩
    have hline : ∀ c ∈ body, c != '\n' := by
      intro c hc
      rw [bne_iff_ne]
      rintro rfl
      exact hnl hc
    rwa [(takeWhile_append_of_startsWith hline hrest).1]
  | @character c rest hc =>
    have hclosed : ∀ r ∈ v.rules, r.opens c = false := by simpa [Version.opens] using hc
    exact ⟨c, rest, rfl,
      .character fun r hr p => LexRule.scan_of_opens_eq_false (hclosed r hr) p rest⟩
  | @carriageReturn rest hrest =>
    exact ⟨'\r', rest, rfl, .character fun r hr p => scan_carriageReturn hrest hr p⟩

/-- A text is refused at one of its characters. What stands before the character is read by
itself and leads to the place of the error, and the character is a quotation mark without a
partner on its line, or one where no rule applies. -/
theorem tokenize_refuses (source version : String) (v : Version)
    (hv : Version.ofId version = .ok v) (e : LexError) (h : tokenize source version = .error e) :
    ∃ (u w : String) (c : Char), source = u ++ String.singleton c ++ w ∧
      (∃ ts, tokenize u version = .ok ts) ∧
      e.position? = some (Position.start.advance u.toList) ∧
      ((∃ p, e = .unmatchedQuote c p) ∧ (c = '\x22' ∨ c = '\x27') ∧
          c ∉ w.toList.takeWhile (· != '\n') ∨
        (∃ p, e = .unrecognizedCharacter c p) ∧
          ∀ r ∈ v.rules, ∀ p, r.scan p (c :: w.toList) = .ok none) := by
  rw [tokenize_of_ofId hv, tokensFrom_eq_iff] at h
  obtain ⟨u, rest, f, tu, hsource, hu, hstops, rfl⟩ := h.exists_stops e rfl
  obtain ⟨c, w, rfl, hrefuses⟩ := hstops.exists_refuses
  refine ⟨String.ofList u, String.ofList w, c, ?_, ⟨tu, ?_⟩, ?_⟩
  · rw [← String.toList_inj, hsource]
    simp
  · rwa [tokenize_of_ofId hv, tokensFrom_eq_iff, String.toList_ofList]
  · rw [String.toList_ofList, String.toList_ofList]
    cases hrefuses with
    | quote hquote hpartner => exact ⟨rfl, .inl ⟨⟨_, rfl⟩, hquote, hpartner⟩⟩
    | character hscan => exact ⟨rfl, .inr ⟨⟨_, rfl⟩, hscan⟩⟩

/-- A number in front of a point, which would belong to it if digits came behind, and a quotation
mark with its like only in the next line. -/
theorem tokenize_refuses_pointAndQuote :
    let numeral := "é\r\n1.@"
    let quoted := "x='\x22\n'"
    (Version.ofId "1.1" = .ok .v11 ∧
      tokenize numeral "1.1" = .error (.unrecognizedCharacter '.' ⟨2, 1⟩) ∧
      ∃ u w, numeral = u ++ "." ++ w ∧ (∃ ts, tokenize u "1.1" = .ok ts) ∧
        Position.start.advance u.toList = ⟨2, 1⟩ ∧
        ∀ r ∈ Version.v11.rules, ∀ p, r.scan p ('.' :: w.toList) = .ok none) ∧
    Version.ofId "1.0" = .ok .v10 ∧
      tokenize quoted "1.0" = .error (.unmatchedQuote '\x27' ⟨1, 2⟩) ∧
      ∃ u w, quoted = u ++ "'" ++ w ∧ (∃ ts, tokenize u "1.0" = .ok ts) ∧
        Position.start.advance u.toList = ⟨1, 2⟩ ∧ '\x27' ∉ w.toList.takeWhile (· != '\n') := by
  intro numeral quoted
  have hnew : Version.ofId "1.1" = .ok .v11 := by decide
  have hold : Version.ofId "1.0" = .ok .v10 := by decide
  have hpoint : tokenize numeral "1.1" = .error (.unrecognizedCharacter '.' ⟨2, 1⟩) := by
    decide +kernel
  have hquote : tokenize quoted "1.0" = .error (.unmatchedQuote '\x27' ⟨1, 2⟩) := by decide +kernel
  constructor
  · obtain ⟨u, w, c, hsource, hu, hplace, ⟨⟨p, he⟩, -⟩ | ⟨⟨p, he⟩, hscan⟩⟩ :=
      tokenize_refuses numeral "1.1" .v11 hnew _ hpoint
    · cases he
    · cases he
      exact ⟨hnew, hpoint, u, w, hsource, hu, (Option.some.inj hplace).symm, hscan⟩
  · obtain ⟨u, w, c, hsource, hu, hplace, ⟨⟨p, he⟩, -, hpartner⟩ | ⟨⟨p, he⟩, -⟩⟩ :=
      tokenize_refuses quoted "1.0" .v10 hold _ hquote
    · cases he
      exact ⟨hold, hquote, u, w, hsource, hu, (Option.some.inj hplace).symm, hpartner⟩
    · cases he

end LetScript
