import LetScript.Proofs.Blame
import LetScript.Proofs.Slice

/-! Reading on behind an error. Reading a program as a whole stops at the first error that
reading it line by line reports, and these errors come in the order of the text. -/
namespace LetScript

/-! ### The first error -/

section
variable {ε α : Type}

@[simp] theorem mapM_id_ok (as : List α) : (as.map (Except.ok (ε := ε))).mapM id = .ok as := by
  induction as with
  | nil => rfl
  | cons a as ih =>
    rw [List.map_cons, List.mapM_cons, ih]
    rfl

@[simp] theorem mapM_id_error (as : List α) (e : ε) (more : List (Except ε α)) :
    (as.map Except.ok ++ Except.error e :: more).mapM id = .error e := by
  induction as with
  | nil => rfl
  | cons a as ih =>
    rw [List.map_cons, List.cons_append, List.mapM_cons, ih]
    rfl

/-- A list of results is free of errors, or there is a first one. -/
theorem eq_map_ok_or_error (xs : List (Except ε α)) :
    (∃ as : List α, xs = as.map .ok) ∨
      ∃ (as : List α) (e : ε) (more : List (Except ε α)), xs = as.map .ok ++ .error e :: more := by
  induction xs with
  | nil => exact .inl ⟨[], rfl⟩
  | cons x xs ih =>
    cases x with
    | error e => exact .inr ⟨[], e, xs, rfl⟩
    | ok a =>
      rcases ih with ⟨as, rfl⟩ | ⟨as, e, more, rfl⟩
      · exact .inl ⟨a :: as, rfl⟩
      · exact .inr ⟨a :: as, e, more, rfl⟩

theorem mapM_id_eq_ok_iff {xs : List (Except ε α)} {as : List α} :
    xs.mapM id = .ok as ↔ xs = as.map .ok := by
  rcases eq_map_ok_or_error xs with ⟨bs, rfl⟩ | ⟨bs, e, more, rfl⟩
  · rw [mapM_id_ok]
    refine ⟨fun h => by rw [Except.ok.inj h], fun h => ?_⟩
    have hbs := mapM_id_ok (ε := ε) bs
    rw [h, mapM_id_ok] at hbs
    exact hbs.symm
  · refine ⟨fun h => ?_, fun h => by rw [h, mapM_id_ok]⟩
    rw [mapM_id_error] at h
    cases h

theorem mapM_id_eq_error_iff {xs : List (Except ε α)} {e : ε} :
    xs.mapM id = .error e ↔
      ∃ (as : List α) (more : List (Except ε α)), xs = as.map .ok ++ .error e :: more := by
  refine ⟨fun h => ?_, ?_⟩
  · rcases eq_map_ok_or_error xs with ⟨bs, rfl⟩ | ⟨bs, e', more, rfl⟩
    · rw [mapM_id_ok] at h
      cases h
    · rw [mapM_id_error] at h
      cases h
      exact ⟨bs, more, rfl⟩
  · rintro ⟨as, more, rfl⟩
    exact mapM_id_error as e more

end

/-- A program is made of what is read line by line, up to the first error. -/
theorem parse_eq_mapM (ts : List Token) : parse ts = (parseEachLine ts).mapM id := by
  rw [parse, readBlock_eq, parseEachLine, List.mapM_append, List.mapM_map, Function.id_comp]
  cases (cutLines (significant ts)).lines.mapM readStatement with
  | error e => rfl
  | ok ss =>
    cases (cutLines (significant ts)).fault with
    | none => simp
    | some e => rfl

theorem error_mem_parseEachLine {ts : List Token} {e : SyntaxError} (h : parse ts = .error e) :
    .error e ∈ parseEachLine ts := by
  rw [parse_eq_mapM, mapM_id_eq_error_iff] at h
  obtain ⟨ss, more, h⟩ := h
  rw [h]
  simp

/-! ### The order of the errors -/

def errorOf? {α : Type} : Except SyntaxError α → Option SyntaxError
  | .ok _ => none
  | .error e => some e

@[simp] theorem errorOf?_eq_some_iff {α : Type} {x : Except SyntaxError α} {e : SyntaxError} :
    errorOf? x = some e ↔ x = .error e := by
  cases x <;> simp [errorOf?]

/-- The errors in a list of results. -/
def errorsIn (xs : List (Except SyntaxError Statement)) : List SyntaxError :=
  xs.filterMap errorOf?

@[simp] theorem mem_errorsIn {xs : List (Except SyntaxError Statement)} {e : SyntaxError} :
    e ∈ errorsIn xs ↔ .error e ∈ xs := by
  simp [errorsIn]

/-- What holds between earlier and later tokens holds between those of earlier and later
lines. -/
theorem CutsInto.pairwise {R : Token → Token → Prop} {ts : List Token} {ls : List Line}
    (h : CutsInto ts ls) (hts : ts.Pairwise R) :
    ls.Pairwise fun l l' => ∀ t ∈ l.tokens, ∀ u ∈ l'.tokens, R t u := by
  induction h with
  | nil => exact .nil
  | empty _ _ ih => exact ih (List.pairwise_cons.mp hts).2
  | ended _ h ih =>
    obtain ⟨-, hrest, hcross⟩ := List.pairwise_append.mp hts
    refine List.pairwise_cons.mpr ⟨fun l' hl' t ht u hu => ?_, ih (List.pairwise_cons.mp hrest).2⟩
    exact hcross t ht u (by simp [h.mem hl' hu])
  | closed _ h ih =>
    obtain ⟨-, hrest, hcross⟩ := List.pairwise_append.mp hts
    exact List.pairwise_cons.mpr
      ⟨fun l' hl' t ht u hu => hcross t ht u (h.mem hl' hu), ih hrest⟩

/-- An error blamed on earlier tokens stands before one that is blamed on later tokens. -/
theorem SyntaxError.Blames.lt {e e' : SyntaxError} {us us' : List Token}
    {related related' : List Token → List Token → Prop} (he : e.Blames related us)
    (he' : e'.Blames related' us') (h : ∀ t ∈ us, ∀ u ∈ us', t.position < u.position) :
    e.position < e'.position := by
  obtain ⟨t, ht, hp⟩ := he.exists_mem
  obtain ⟨u, hu, hp'⟩ := he'.exists_mem
  rw [hp, hp']
  exact h t ht u hu

theorem errorsIn_pairwise {ts : List Token}
    (hts : (significant ts).Pairwise fun t u => t.position < u.position) :
    (errorsIn (parseEachLine ts)).Pairwise fun e e' => e.position < e'.position := by
  obtain ⟨front, rest, heq, hfront, hrest⟩ := cutLines_divides (significant ts)
  rw [heq] at hts
  obtain ⟨hlines, -, hcross⟩ := List.pairwise_append.mp hts
  rw [parseEachLine, errorsIn, List.filterMap_append, List.pairwise_append]
  refine ⟨?_, ?_, ?_⟩
  · rw [List.pairwise_filterMap, List.pairwise_map]
    refine (hfront.pairwise hlines).imp fun {l l'} hll e he e' he' => ?_
    rw [errorOf?_eq_some_iff] at he he'
    exact ((readStatement_confined l).of_error he).lt ((readStatement_confined l').of_error he') hll
  · cases (cutLines (significant ts)).fault <;> simp [errorOf?]
  · intro e he e' he'
    obtain ⟨l, hl, hread⟩ : ∃ l ∈ (cutLines (significant ts)).lines,
        readStatement l = .error e := by
      simpa using he
    have hfault : (cutLines (significant ts)).fault = some e' := by
      simpa using he'
    rw [hfault] at hrest
    refine ((readStatement_confined l).of_error hread).lt hrest.fits.blames fun t ht u hu => ?_
    exact hcross t (hfront.mem hl ht) u hu

theorem tokenize_increasing {source version : String} {ts : List Token}
    (h : tokenize source version = .ok ts) :
    ts.Pairwise fun t u => t.position < u.position := by
  obtain ⟨v, -, hts⟩ := tokenize_eq_ok_iff.mp h
  obtain ⟨ls, hls⟩ := (tokensFrom_eq_iff.mp hts).exists_sliced ts rfl
  exact hls.increasing

theorem significant_increasing {source version : String} {ts : List Token}
    (h : tokenize source version = .ok ts) :
    (significant ts).Pairwise fun t u => t.position < u.position :=
  (tokenize_increasing h).sublist List.filter_sublist

/-- Each error of reading line by line blames the line that it is about, and the one in cutting
the lines blames what is left behind them. -/
theorem parseEachLine_blames {ts rest : List Token}
    (hrest : Leaves rest (cutLines (significant ts)).fault) {i : Nat} {e : SyntaxError}
    (h : (parseEachLine ts)[i]? = some (.error e)) :
    (∃ l, (cutLines (significant ts)).lines[i]? = some l ∧ e.Blames Part l.tokens) ∨
      i = (cutLines (significant ts)).lines.length ∧ (cutLines (significant ts)).fault = some e ∧
        e.Blames Part rest := by
  rw [parseEachLine, List.getElem?_append] at h
  split at h
  · rw [List.getElem?_map] at h
    obtain ⟨l, hl, hread⟩ := Option.map_eq_some_iff.mp h
    exact .inl ⟨l, hl, (readStatement_confined l).of_error hread⟩
  · rename_i hle
    rw [List.length_map] at h hle
    cases hf : (cutLines (significant ts)).fault with
    | none => simp [hf] at h
    | some e' =>
      rw [hf] at h hrest
      obtain ⟨hi, rfl⟩ : i - (cutLines (significant ts)).lines.length = 0 ∧ e' = e := by
        simpa [List.getElem?_singleton] using h
      exact .inr ⟨by omega, rfl, hrest.fits.blames⟩

theorem blames_significant {ts : List Token} {e : SyntaxError} (h : .error e ∈ parseEachLine ts) :
    e.Blames Segment (significant ts) := by
  rcases List.mem_append.mp h with h | h
  · obtain ⟨l, hl, he⟩ := List.mem_map.mp h
    exact ((readStatement_confined l).of_error he).line hl
  · obtain ⟨e', hfault, he⟩ := List.mem_map.mp h
    cases he
    exact blames_of_fault (Option.mem_toList.mp hfault)

/-- Reading a program as a whole agrees with reading it line by line: it gives the statements
of all lines if none is at fault, and otherwise the first error. For a program that comes from
a text each error stands at a token of the line that it is about, or else of what is left
behind the lines, so the errors come in the order of the text and the first one is the
earliest. -/
theorem parse_eachLine :
    (∀ ts : List Token,
      (∀ ss : List Statement, parse ts = .ok ss ↔ parseEachLine ts = ss.map .ok) ∧
      ∀ e, parse ts = .error e ↔
        ∃ (ss : List Statement) (more : List (Except SyntaxError Statement)),
          parseEachLine ts = ss.map .ok ++ .error e :: more) ∧
    ∀ source version ts, tokenize source version = .ok ts →
      (∃ front rest, significant ts = front ++ rest ∧
        CutsInto front (cutLines (significant ts)).lines ∧
        Leaves rest (cutLines (significant ts)).fault ∧
        ∀ i e, (parseEachLine ts)[i]? = some (.error e) →
          (∃ l, (cutLines (significant ts)).lines[i]? = some l ∧ e.Blames Part l.tokens) ∨
            i = (cutLines (significant ts)).lines.length ∧
              (cutLines (significant ts)).fault = some e ∧ e.Blames Part rest) ∧
      (∀ e ∈ errorsIn (parseEachLine ts), e.Blames Segment (significant ts)) ∧
      (errorsIn (parseEachLine ts)).Pairwise (fun e e' => e.position < e'.position) ∧
      ∀ e, parse ts = .error e →
        ∀ e' ∈ errorsIn (parseEachLine ts), e' = e ∨ e.position < e'.position := by
  refine ⟨fun ts => ⟨fun ss => ?_, fun e => ?_⟩, fun source version ts h => ?_⟩
  · rw [parse_eq_mapM, mapM_id_eq_ok_iff]
  · rw [parse_eq_mapM, mapM_id_eq_error_iff]
  · obtain ⟨front, rest, heq, hfront, hrest⟩ := cutLines_divides (significant ts)
    have horder := errorsIn_pairwise (significant_increasing h)
    refine ⟨⟨front, rest, heq, hfront, hrest, fun i e => parseEachLine_blames hrest⟩,
      fun e he => blames_significant (mem_errorsIn.mp he), horder, ?_⟩
    intro e he e' he'
    rw [parse_eq_mapM, mapM_id_eq_error_iff] at he
    obtain ⟨ss, more, hlines⟩ := he
    have hfirst : errorsIn (parseEachLine ts) = e :: errorsIn more := by
      rw [hlines, errorsIn, List.filterMap_append, List.filterMap_cons]
      simp [errorOf?, errorsIn]
    rw [hfirst] at horder he'
    rcases List.mem_cons.mp he' with rfl | he'
    · exact .inl rfl
    · exact .inr ((List.pairwise_cons.mp horder).1 e' he')

/-- The tokens of four lines, each with an error of its own: `a;`, `if(b){c=;}`, `let d;` and a
brace that closes nothing. -/
def faultyLines : List Token :=
  [.identifier "a" ⟨1, 0⟩, .raw .semicolon ";" ⟨1, 1⟩, .lineBreak ⟨1, 2⟩,
   .raw .ifWord "if" ⟨2, 0⟩, .raw .openParen "(" ⟨2, 2⟩, .identifier "b" ⟨2, 3⟩,
   .raw .closeParen ")" ⟨2, 4⟩, .raw .openBrace "\x7b" ⟨2, 5⟩, .identifier "c" ⟨2, 6⟩,
   .operator .equal ⟨2, 7⟩, .raw .semicolon ";" ⟨2, 8⟩, .raw .closeBrace "\x7d" ⟨2, 9⟩,
   .lineBreak ⟨2, 10⟩, .raw .declarator "let" ⟨3, 0⟩, .space ⟨3, 3⟩, .identifier "d" ⟨3, 4⟩,
   .raw .semicolon ";" ⟨3, 5⟩, .lineBreak ⟨3, 6⟩, .raw .closeBrace "\x7d" ⟨4, 0⟩]

theorem parse_eachLine_faultyLines :
    let source := "a;\nif(b)\x7bc=;\x7d\nlet d;\n\x7d"
    let e := SyntaxError.of (.tooFewTokens "assignment" 3 1) ⟨1, 0⟩
    tokenize source "1.1" = .ok faultyLines ∧
      (errorsIn (parseEachLine faultyLines)).map SyntaxError.position =
        [⟨1, 0⟩, ⟨2, 7⟩, ⟨3, 4⟩, ⟨4, 0⟩] ∧
      (errorsIn (parseEachLine faultyLines)).Pairwise (fun e e' => e.position < e'.position) ∧
      parse faultyLines = .error e ∧
      ∀ e' ∈ errorsIn (parseEachLine faultyLines), e' = e ∨ e.position < e'.position := by
  intro source e
  have h : tokenize source "1.1" = .ok faultyLines := by decide +kernel
  obtain ⟨-, -, horder, hearliest⟩ := parse_eachLine.2 source "1.1" faultyLines h
  have hplaces : (errorsIn (parseEachLine faultyLines)).map SyntaxError.position =
      [⟨1, 0⟩, ⟨2, 7⟩, ⟨3, 4⟩, ⟨4, 0⟩] := by decide +kernel
  have hparse : parse faultyLines = .error e := by
    rw [← errorOf?_eq_some_iff]
    decide +kernel
  exact ⟨h, hplaces, horder, hparse, hearliest e hparse⟩

end LetScript
