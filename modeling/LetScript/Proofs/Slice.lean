import LetScript.Proofs.Scanning

/-! Nothing of a text is lost in reading it. The tokens are read from slices that make up
the whole text, each token stands where its slice begins, and every slice leads to a later
place. -/
namespace LetScript

/-! ### Later places -/

namespace Position

theorem lt_trans {p q r : Position} (hpq : p < q) (hqr : q < r) : p < r := by
  rw [lt_iff] at *
  omega

theorem lt_asymm {p q : Position} (hpq : p < q) : ¬ q < p := by
  rw [lt_iff] at *
  omega

theorem lt_step (p : Position) {c : Char} (hc : c ≠ '\r') : p < p.step c := by
  rw [lt_iff, step]
  by_cases hnl : c = '\n' <;> simp [hnl, hc]

theorem advance_eq_or_lt (p : Position) (cs : List Char) : p.advance cs = p ∨ p < p.advance cs := by
  induction cs generalizing p with
  | nil => exact .inl rfl
  | cons c cs ih =>
    rw [advance_cons]
    by_cases hc : c = '\r'
    · simpa [step, hc] using ih p
    · have hstep := p.lt_step hc
      rcases ih (p.step c) with h | h
      · exact .inr (by rwa [h])
      · exact .inr (lt_trans hstep h)

/-- Only carriage returns take no place. -/
theorem lt_advance (p : Position) {c : Char} {cs : List Char} (hmem : c ∈ cs) (hc : c ≠ '\r') :
    p < p.advance cs := by
  obtain ⟨front, back, rfl⟩ := List.append_of_mem hmem
  rw [advance_append, advance_cons]
  have hstep : p < (p.advance front).step c := by
    rcases p.advance_eq_or_lt front with h | h
    · rw [h]
      exact p.lt_step hc
    · exact lt_trans h (lt_step _ hc)
  rcases ((p.advance front).step c).advance_eq_or_lt back with h | h
  · rwa [h]
  · exact lt_trans hstep h

end Position

theorem Version.Takes.lt_advance {v : Version} {cs : List Char} {l : Lexeme} (h : v.Takes cs l)
    (p : Position) : p < p.advance l.text := by
  have hmarks : ∀ m ∈ v.marks, m.2.spelling.any (· != '\r') := by cases v <;> decide
  have hpart {c : Char} (hc : isWordPart c) : c ≠ '\r' := by
    rintro rfl
    exact absurd hc (by decide)
  cases h with
  | mark hm =>
    obtain ⟨c, hmem, hc⟩ := List.any_eq_true.mp (hmarks _ hm)
    exact p.lt_advance hmem (by simpa using hc)
  | string hq =>
    refine p.lt_advance (List.mem_cons_self ..) ?_
    rcases hq with rfl | rfl <;> decide
  | number hne hwhole =>
    obtain ⟨c, ds, rfl⟩ := List.exists_cons_of_ne_nil hne
    refine p.lt_advance (c := c) ?_ (hpart (isWordPart_of_isDigit (hwhole c (by simp))))
    simp
  | word hc => exact p.lt_advance (List.mem_cons_self ..) (hpart (isWordPart_of_isWordStart hc))

/-! ### What a token is read from -/

/-- The texts that a token can be read from. This is its spelling, except that a type has
several, a string can stand between quotation marks of either sort, and a number can be
written with any digits that have its value. -/
def Token.WrittenAs (t : Token) (text : List Char) : Prop :=
  match t.kind, t.value with
  | .typeName, .typeName ty => ∃ w ∈ ty.spellings, text = w.toList
  | .string, .string s =>
    ∃ q, (q = '\x22' ∨ q = '\x27') ∧ q ∉ s.toList ∧ '\n' ∉ s.toList ∧ text = q :: s.toList ++ [q]
  | .number, .number x =>
    ∃ whole fraction, whole ≠ [] ∧ (∀ c ∈ whole, c.isDigit) ∧ (∀ c ∈ fraction, c.isDigit) ∧
      text = Binary64.written whole fraction ∧ Binary64.ofDigits whole fraction = x
  | _, _ => text = t.spelling

theorem Token.writtenAs_spelling {k : Kind} (hk : k ∉ [.typeName, .string, .number]) (x : Value)
    (p : Position) : (Token.mk k x p).WrittenAs x.spelling := by
  unfold WrittenAs
  split <;> simp_all [spelling]

theorem LexRule.words_writtenAs (r : LexRule) (p : Position) :
    ∀ e ∈ r.words, (Token.mk e.kind e.value p).WrittenAs e.word.toList := by
  cases r with
  | keyword k =>
    rw [words, List.forall_mem_singleton]
    exact Token.writtenAs_spelling (by cases k <;> decide) (.raw k.word) p
  | booleanLiteral =>
    simp only [words, List.forall_mem_cons]
    exact ⟨Token.writtenAs_spelling (by decide) (.boolean true) p,
      Token.writtenAs_spelling (by decide) (.boolean false) p, by simp⟩
  | typeName t =>
    rw [words, List.forall_mem_map]
    exact fun w hw => ⟨w, hw, rfl⟩
  | builtin f =>
    rw [words, List.forall_mem_singleton]
    exact Token.writtenAs_spelling (k := .builtin) (by decide) (.builtin f) p
  | _ => simp [words]

theorem Version.Takes.writtenAs {v : Version} {cs : List Char} {l : Lexeme} (h : v.Takes cs l)
    (p : Position) : (l.token p).WrittenAs l.text := by
  have hmarks : ∀ m ∈ v.marks, m.1 ∉ [.typeName, .string, .number] := by cases v <;> decide
  cases h with
  | @mark m rest hm => exact Token.writtenAs_spelling (hmarks m hm) m.2 p
  | @string q body rest hq hnl hbody =>
    exact ⟨q, hq, by rwa [String.toList_ofList], by rwa [String.toList_ofList],
      by rw [String.toList_ofList]⟩
  | @number whole fraction rest hne hwhole hfraction =>
    exact ⟨whole, fraction, hne, hwhole, hfraction, rfl, rfl⟩
  | @word c w =>
    rcases v.meaning_cases (c :: w) with ⟨e, he, hw, h⟩ | h
    · obtain ⟨r, -, her⟩ := List.mem_flatMap.mp he
      have hwritten := r.words_writtenAs p e her
      rw [hw] at hwritten
      simpa only [Lexeme.token, h] using hwritten
    · have hwritten := Token.writtenAs_spelling (k := .identifier) (by decide)
        (.raw (String.ofList (c :: w))) p
      rw [Value.spelling, String.toList_ofList] at hwritten
      simpa only [Lexeme.token, h] using hwritten

/-! ### The slices of a text -/

/-- How the slices `ls` of a text that begins at a place belong to its tokens. -/
structure Sliced (p : Position) (cs : List Char) (ts : List Token) (ls : List (List Char)) :
    Prop where
  flatten : ls.flatten = cs
  ne_nil : ∀ l ∈ ls, l ≠ []
  writtenAs : List.Forall₂ Token.WrittenAs ts ls
  position : ∀ i t, ts[i]? = some t → t.position = p.advance (ls.take i).flatten
  increasing : ts.Pairwise fun t u => t.position < u.position

theorem Sliced.cons {v : Version} {p : Position} {cs : List Char} {l : Lexeme} {ts : List Token}
    {ls : List (List Char)} (hl : v.Takes cs l) (h : Sliced (p.advance l.text) l.rest ts ls) :
    Sliced p cs (l.token p :: ts) (l.text :: ls) where
  flatten := by rw [List.flatten_cons, h.flatten, hl.heads.2]
  ne_nil := List.forall_mem_cons.mpr ⟨hl.heads.1, h.ne_nil⟩
  writtenAs := .cons (hl.writtenAs p) h.writtenAs
  position := by
    intro i t ht
    cases i with
    | zero =>
      obtain rfl : l.token p = t := by simpa using ht
      rfl
    | succ i =>
      rw [List.take_succ_cons, List.flatten_cons, Position.advance_append]
      exact h.position i t ht
  increasing := by
    refine List.pairwise_cons.mpr ⟨fun u hu => ?_, h.increasing⟩
    obtain ⟨i, hi⟩ := List.mem_iff_getElem?.mp hu
    have hfirst := hl.lt_advance p
    rw [h.position i u hi]
    rcases (p.advance l.text).advance_eq_or_lt (ls.take i).flatten with h | h
    · rwa [h]
    · exact Position.lt_trans hfirst h

/-- What holds of every lexeme holds of every token and its slice. -/
theorem Version.Reads.exists_slices {v : Version} {R : Token → List Char → Prop}
    (hR : ∀ {cs : List Char} {l : Lexeme} (p : Position), v.Takes cs l → R (l.token p) l.text)
    {p : Position} {cs : List Char} {r : Except LexError (List Token)} (h : v.Reads p cs r) :
    ∀ ts, r = .ok ts → ∃ ls, Sliced p cs ts ls ∧ List.Forall₂ R ts ls := by
  induction h with
  | done =>
    rintro ts ⟨⟩
    exact ⟨[], ⟨rfl, by simp, .nil, by simp, .nil⟩, .nil⟩
  | stops =>
    rintro ts ⟨⟩
  | @takes p cs l r hl _ ih =>
    intro ts hts
    cases r with
    | error e => cases hts
    | ok ts' =>
      obtain ⟨ls, hls, hall⟩ := ih ts' rfl
      cases hts
      exact ⟨l.text :: ls, .cons hl hls, .cons (hR p hl) hall⟩

theorem Version.Reads.exists_sliced {v : Version} {p : Position} {cs : List Char}
    {r : Except LexError (List Token)} (h : v.Reads p cs r) :
    ∀ ts, r = .ok ts → ∃ ls, Sliced p cs ts ls := by
  intro ts hts
  obtain ⟨ls, hls, -⟩ := h.exists_slices (R := fun _ _ => True) (fun _ _ => trivial) ts hts
  exact ⟨ls, hls⟩

/-- A text that is read is made up of the slices that its tokens are read from, one after
another. Each token has the place where its slice begins, so the places increase. -/
theorem tokenize_sliced (source version : String) (ts : List Token)
    (h : tokenize source version = .ok ts) : ∃ ls, Sliced .start source.toList ts ls := by
  obtain ⟨v, -, hts⟩ := tokenize_eq_ok_iff.mp h
  exact (tokensFrom_eq_iff.mp hts).exists_sliced ts rfl

/-- A name outside ASCII, a type in lower case, a string that holds the other quotation
mark, a line break of two characters, and a number with superfluous zeros. -/
theorem tokenize_sliced_mixed :
    let source := "é:string='\x22';\r\n007.50"
    let ts := [Token.identifier "é" ⟨1, 0⟩, .raw .colon ":" ⟨1, 1⟩, .typeName .string ⟨1, 2⟩,
      .operator .equal ⟨1, 8⟩, .string "\x22" ⟨1, 9⟩, .raw .semicolon ";" ⟨1, 12⟩,
      .raw .newline "\r\n" ⟨1, 13⟩, .number (.ofDigits ['7'] ['5']) ⟨2, 0⟩]
    tokenize source "1.0" = .ok ts ∧ ∃ ls, Sliced .start source.toList ts ls := by
  intro source ts
  have h : tokenize source "1.0" = .ok ts := by decide +kernel
  exact ⟨h, tokenize_sliced source "1.0" ts h⟩

end LetScript
