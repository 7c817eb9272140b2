import Mathlib.Data.List.Chain
import LetScript.Proofs.Lexeme
import LetScript.Proofs.Token

/-! Reading spelled tokens back. Every token that was read is read again from
its spelling, and a list of them from its text, as long as no two tokens come to
stand side by side that would run into one. -/
namespace LetScript

namespace Kind

/-- The kinds whose lexemes are words. -/
def isWord : Kind → Bool
  | declarator | ifWord | elseWord | identifier | typeName | builtin | boolean => true
  | _ => false

/-- Whether a lexeme of the kind goes on with a character. -/
def absorbs (k : Kind) (c : Char) : Bool :=
  if k.isWord then isWordPart c else if k = number then c.isDigit || c == '.' else false

/-- Whether lexemes of two kinds can stand side by side. -/
def mayMeet (k l : Kind) : Bool :=
  if k.isWord then !(l.isWord || l == number) else !(k == number && l == number)

end Kind

namespace Version

theorem marks_front (v : Version) :
    ∀ m ∈ v.marks, m.1.isWord = false ∧ m.1 ≠ .number ∧
      m.2.spelling.head?.any fun c => !isWordPart c && c != '.' := by
  cases v <;> decide

theorem reserved_respelled (v : Version) :
    ∀ e ∈ v.reserved, e.kind.isWord ∧ e.value.spelling.head?.any isWordStart ∧
      (∀ c ∈ e.value.spelling, isWordPart c) ∧ v.meaning e.value.spelling = (e.kind, e.value) := by
  simp only [← List.all_eq_true]
  cases v <;> decide

/-- A word has one fixed meaning, or it is a name and is spelled as it is. -/
theorem meaning_cases (v : Version) (w : List Char) :
    (∃ e ∈ v.reserved, e.word.toList = w ∧ v.meaning w = (e.kind, e.value)) ∨
      v.meaning w = (.identifier, .raw (String.ofList w)) := by
  rw [meaning]
  split
  · rename_i e he
    exact .inl ⟨e, List.mem_of_find?_eq_some he, by simpa using List.find?_some he, rfl⟩
  · exact .inr rfl

theorem isWord_meaning (v : Version) (w : List Char) : (v.meaning w).1.isWord := by
  rcases v.meaning_cases w with ⟨e, he, -, h⟩ | h
  · rw [h]
    exact (v.reserved_respelled e he).1
  · rw [h]
    rfl

theorem meaning_respelled {v : Version} {c : Char} {w : List Char} (hc : isWordStart c)
    (hw : ∀ d ∈ w, isWordPart d) :
    ∃ c' w', (v.meaning (c :: w)).2.spelling = c' :: w' ∧ isWordStart c' ∧
      (∀ d ∈ w', isWordPart d) ∧ v.meaning (c' :: w') = v.meaning (c :: w) := by
  rcases v.meaning_cases (c :: w) with ⟨e, he, -, h⟩ | h
  · obtain ⟨-, hstart, hpart, hmeaning⟩ := v.reserved_respelled e he
    rw [h]
    cases hs : e.value.spelling with
    | nil => simp [hs] at hstart
    | cons c' w' =>
      rw [hs] at hstart hpart hmeaning
      exact ⟨c', w', rfl, by simpa using hstart, fun d hd => hpart d (by simp [hd]), hmeaning⟩
  · exact ⟨c, w, by simp [h, Value.spelling], hc, hw, rfl⟩

namespace Takes

/-- The kind of a lexeme shows in its first character. -/
theorem front {v : Version} {cs : List Char} {l : Lexeme} (h : v.Takes cs l) :
    ∃ c cs', cs = c :: cs' ∧ isWordPart c = (l.kind.isWord || l.kind == .number) ∧
      c.isDigit = (l.kind == .number) ∧ c ≠ '.' := by
  have hdigit {c : Char} (hc : isWordPart c = false) : c.isDigit = false := by
    rw [← Bool.not_eq_true] at hc ⊢
    exact fun h => hc (isWordPart_of_isDigit h)
  cases h with
  | @mark m rest hm =>
    obtain ⟨hword, hnumber, hfront⟩ := v.marks_front m hm
    cases hs : m.2.spelling with
    | nil => simp [hs] at hfront
    | cons c cs =>
      obtain ⟨hc, hpoint⟩ : isWordPart c = false ∧ c ≠ '.' := by simpa [hs] using hfront
      exact ⟨c, cs ++ rest, rfl, by simp [hc, hword, hnumber], by simp [hdigit hc, hnumber], hpoint⟩
  | @string q body rest hq _ _ =>
    have hc : isWordPart q = false ∧ q ≠ '.' := by
      rcases hq with rfl | rfl <;> decide
    exact ⟨q, body ++ q :: rest, rfl, hc.1, hdigit hc.1, hc.2⟩
  | @number whole fraction rest hne hwhole _ _ _ =>
    obtain ⟨c, ds, rfl⟩ := List.exists_cons_of_ne_nil hne
    have hc : c.isDigit := hwhole c (by simp)
    refine ⟨c, Binary64.written ds fraction ++ rest, by rw [Binary64.written_cons]; rfl,
      isWordPart_of_isDigit hc, hc, ?_⟩
    rintro rfl
    exact absurd hc (by decide)
  | @word c w rest hc _ _ =>
    have hword := v.isWord_meaning (c :: w)
    have hnumber : (v.meaning (c :: w)).1 ≠ .number := by
      intro h
      simp [h, Kind.isWord] at hword
    have hdigit : c.isDigit = false := by
      rw [← Bool.not_eq_true]
      intro h
      simp [isWordStart_of_isDigit h] at hc
    refine ⟨c, w ++ rest, rfl, by simp [hword, isWordPart_of_isWordStart hc],
      by simp [hdigit, hnumber], ?_⟩
    rintro rfl
    exact absurd hc (by decide)

/-- A word ends where the text goes on with no part of a word, and a number
where it goes on with no digit. -/
theorem back {v : Version} {cs : List Char} {l : Lexeme} (h : v.Takes cs l) :
    (l.kind.isWord → startsWith isWordPart l.rest = false) ∧
      (l.kind = .number → startsWith Char.isDigit l.rest = false) := by
  cases h with
  | @mark m rest hm =>
    obtain ⟨hword, hnumber, -⟩ := v.marks_front m hm
    exact ⟨fun h => by simp [hword] at h, fun h => absurd h hnumber⟩
  | string => simp [Kind.isWord]
  | number _ _ _ hrest _ => exact ⟨fun h => by simp [Kind.isWord] at h, fun _ => hrest⟩
  | @word c w rest _ _ hrest =>
    refine ⟨fun _ => hrest, fun (h : (v.meaning (c :: w)).1 = .number) => ?_⟩
    simpa [h, Kind.isWord] using v.isWord_meaning (c :: w)

theorem mayMeet {v : Version} {cs : List Char} {l l' : Lexeme} (h : v.Takes cs l)
    (h' : v.Takes l.rest l') : l.kind.mayMeet l'.kind := by
  obtain ⟨hword, hnumber⟩ := h.back
  obtain ⟨c, cs', hrest, hpart, hdigit, -⟩ := h'.front
  rw [hrest] at hword hnumber
  simp only [startsWith, List.head?_cons, Option.any_some, hpart, hdigit] at hword hnumber
  rw [Kind.mayMeet]
  split
  · rename_i hw
    rw [hword hw]
    rfl
  · cases hn : l.kind == .number with
    | false => rfl
    | true =>
      rw [hnumber (by simpa using hn)]
      rfl

end Takes
end Version

/-- A token that some text is read as, its place apart. -/
def Token.ReadIn (v : Version) (t : Token) : Prop :=
  ∃ cs l, v.Takes cs l ∧ l.kind = t.kind ∧ l.value = t.value

/-- No number that was too large to read. -/
def Token.IsBounded (t : Token) : Prop := ∀ x, t.value = .number x → x.isInfinite = false

instance (t : Token) : Decidable t.IsBounded :=
  match h : t.value with
  | .number x => decidable_of_iff (x.isInfinite = false) (by simp [Token.IsBounded, h])
  | .operator _ | .builtin _ | .typeName _ | .boolean _ | .string _ | .raw _ =>
    .isTrue fun x hx => by simp [h] at hx

theorem quoted_eq {q : Char} {body : List Char} (hq : q = '\x22' ∨ q = '\x27') (hbody : q ∉ body) :
    ∃ q', (q' = '\x22' ∨ q' = '\x27') ∧ q' ∉ body ∧ quoted body = q' :: body ++ [q'] := by
  by_cases hd : '\x22' ∈ body
  · have hq' : q = '\x27' := by
      rcases hq with rfl | rfl
      · exact absurd hd hbody
      · rfl
    exact ⟨q, hq, hbody, by simp [quoted, hd, hq']⟩
  · exact ⟨'\x22', .inl rfl, hd, by simp [quoted, hd]⟩

/-- A token is taken from its spelling if the text after it does not go on with
it. -/
theorem Token.ReadIn.takes {v : Version} {t : Token} (h : t.ReadIn v) (hb : t.IsBounded)
    {rest : List Char} (hrest : startsWith t.kind.absorbs rest = false) :
    v.Takes (t.spelling ++ rest) ⟨t.kind, t.value, t.spelling, rest⟩ := by
  obtain ⟨cs, l, htakes, hkind, hvalue⟩ := h
  rw [Token.spelling, ← hkind, ← hvalue]
  rw [← hkind] at hrest
  cases htakes with
  | mark hm => exact .mark hm
  | @string q body _ hq hnl hbody =>
    obtain ⟨q', hq', hbody', hquoted⟩ := quoted_eq hq hbody
    simp only [Value.spelling, String.toList_ofList, hquoted, List.append_assoc, List.cons_append,
      List.nil_append]
    exact .string hq' hnl hbody'
  | @number whole fraction _ _ _ _ _ _ =>
    obtain ⟨hneg, hfinite⟩ := Binary64.ofDigits_range whole fraction
    obtain ⟨whole', fraction', htext, hne, hwhole, hfraction, hvalue'⟩ :=
      Binary64.text_eq hneg (hfinite (hb _ hvalue.symm))
    simp only [Value.spelling, htext]
    rw [← hvalue']
    have hdigit : startsWith Char.isDigit rest = false := by
      cases rest with
      | nil => rfl
      | cons c rest =>
        have : c.isDigit = false ∧ c ≠ '.' := by
          simpa [startsWith, Kind.absorbs, Kind.isWord] using hrest
        exact this.1
    refine .number hne hwhole hfraction hdigit fun _ more hmore => ?_
    simp [hmore, startsWith, Kind.absorbs, Kind.isWord] at hrest
  | @word c w _ hc hw _ =>
    obtain ⟨c', w', hspelling, hc', hw', hmeaning⟩ :=
      Version.meaning_respelled (v := v) hc hw
    have habsorbs : Kind.absorbs (v.meaning (c :: w)).1 = isWordPart := by
      funext d
      simp [Kind.absorbs, v.isWord_meaning]
    simp only [habsorbs] at hrest
    simp only [hspelling]
    rw [← hmeaning]
    exact .word hc' hw' hrest

theorem Version.Takes.consistent {v : Version} {cs : List Char} {l : Lexeme} (h : v.Takes cs l)
    (p : Position) : (l.token p).Consistent := by
  have hmarks : ∀ m ∈ v.marks, (Token.mk m.1 m.2 .start).Consistent := by cases v <;> decide
  have hreserved : ∀ e ∈ v.reserved, (Token.mk e.kind e.value .start).Consistent := by
    cases v <;> decide
  cases h with
  | mark hm => exact hmarks _ hm
  | string => trivial
  | number => trivial
  | @word c w =>
    rcases v.meaning_cases (c :: w) with ⟨e, he, -, h⟩ | h
    · simp only [Lexeme.token, h]
      exact hreserved e he
    · simp only [Lexeme.token, h]
      trivial

theorem Token.ReadIn.consistent {v : Version} {t : Token} (h : t.ReadIn v) : t.Consistent := by
  obtain ⟨cs, l, htakes, hkind, hvalue⟩ := h
  have := htakes.consistent t.position
  rwa [Lexeme.token, hkind, hvalue] at this

/-! ### Lists of tokens -/

theorem tokensFrom_cons (rs : List LexRule) (p : Position) (c : Char) (cs : List Char) :
    tokensFrom rs p (c :: cs) =
      match firstLexeme p (c :: cs) rs with
      | .error e => .error e
      | .ok none => .error (.unrecognizedCharacter c p)
      | .ok (some l) => (tokensFrom rs (p.advance l.text) l.rest).map fun ts => l.token p :: ts := by
  rw [tokensFrom]
  split
  · rename_i he
    rw [he]
  · rename_i he
    rw [he]
  · rename_i l hl
    simp only [hl]
    cases tokensFrom rs (p.advance l.text) l.rest <;> rfl

theorem tokensFrom_of_takes {v : Version} {cs : List Char} {l : Lexeme} (h : v.Takes cs l)
    (p : Position) :
    tokensFrom v.rules p cs =
      (tokensFrom v.rules (p.advance l.text) l.rest).map fun ts => l.token p :: ts := by
  obtain ⟨c, cs', rfl, -⟩ := h.front
  rw [tokensFrom_cons, firstLexeme_eq_some_iff.mpr h]

theorem tokensFrom_eq_ok {v : Version} {p : Position} {cs : List Char} {ts : List Token}
    (h : tokensFrom v.rules p cs = .ok ts) :
    cs = [] ∧ ts = [] ∨
      ∃ l ts', v.Takes cs l ∧ tokensFrom v.rules (p.advance l.text) l.rest = .ok ts' ∧
        ts = l.token p :: ts' := by
  cases cs with
  | nil =>
    rw [tokensFrom] at h
    exact .inl ⟨rfl, (Except.ok.inj h).symm⟩
  | cons c cs =>
    refine .inr ?_
    have h₀ := h
    rw [tokensFrom] at h
    split at h
    · cases h
    · cases h
    · rename_i l hl
      have htakes := firstLexeme_eq_some_iff.mp hl
      rw [tokensFrom_of_takes htakes] at h₀
      cases hrest : tokensFrom v.rules (p.advance l.text) l.rest with
      | error e => simp [hrest, Except.map] at h₀
      | ok ts' =>
        rw [hrest] at h₀
        exact ⟨l, ts', htakes, hrest, (Except.ok.inj h₀).symm⟩

/-- Tokens that a text can spell: each one is read somewhere, and no two
neighbours run into one. -/
structure Spellable (v : Version) (ts : List Token) : Prop where
  readIn : ∀ t ∈ ts, t.ReadIn v
  mayMeet : ts.IsChain fun t u => t.kind.mayMeet u.kind

theorem spellable_of_tokensFrom {v : Version} {p : Position} {cs : List Char} {ts : List Token}
    (h : tokensFrom v.rules p cs = .ok ts) : Spellable v ts := by
  induction ts generalizing p cs with
  | nil => exact ⟨by simp, .nil⟩
  | cons t ts ih =>
    obtain ⟨-, hts⟩ | ⟨l, ts', htakes, hrest, hts⟩ := tokensFrom_eq_ok h
    · cases hts
    · obtain ⟨rfl, rfl⟩ := List.cons.inj hts
      have ⟨hread, hmeet⟩ := ih hrest
      refine ⟨List.forall_mem_cons.mpr ⟨⟨cs, l, htakes, rfl, rfl⟩, hread⟩, ?_⟩
      rw [List.isChain_cons]
      refine ⟨fun u hu => ?_, hmeet⟩
      obtain ⟨-, rfl⟩ | ⟨l', ts', htakes', -, rfl⟩ := tokensFrom_eq_ok hrest
      · cases hu
      · obtain rfl : l'.token _ = u := by simpa using hu
        exact htakes.mayMeet htakes'

/-- A number that was too large to read is spelled as a word. -/
theorem Token.ReadIn.spelling_of_unbounded {v : Version} {t : Token} (h : t.ReadIn v)
    (hb : ¬t.IsBounded) : t.kind = .number ∧ t.spelling = "inf".toList := by
  obtain ⟨x, hx, hinfinite⟩ : ∃ x, t.value = .number x ∧ x.isInfinite := by
    simpa [Token.IsBounded] using hb
  have hkind : t.kind = .number := by
    have := h.consistent.kind_eq
    rwa [hx] at this
  refine ⟨hkind, ?_⟩
  obtain ⟨cs, l, htakes, hl, hvalue⟩ := h
  rw [hkind] at hl
  cases htakes with
  | mark hm => exact absurd hl (v.marks_front _ hm).2.1
  | string => cases hl
  | @number whole fraction _ _ _ _ _ _ =>
    obtain rfl : Binary64.ofDigits whole fraction = x := Value.number.inj (hvalue.trans hx)
    rw [Token.spelling, hx]
    exact Binary64.text_of_isInfinite (Binary64.ofDigits_range whole fraction).1 hinfinite
  | @word c w =>
    have hword := v.isWord_meaning (c :: w)
    simp only at hl
    simp [hl, Kind.isWord] at hword

/-- Kinds that can stand side by side do not run into one. -/
theorem Token.ReadIn.absorbs_spell {v : Version} {k : Kind} {u : Token} (hu : u.ReadIn v)
    (hmeet : k.mayMeet u.kind) (us : List Token) :
    startsWith k.absorbs (spell (u :: us)) = false := by
  by_cases hb : u.IsBounded
  · have htakes : v.Takes (u.spelling ++ []) _ := hu.takes hb rfl
    obtain ⟨c, cs, hspell, hpart, hdigit, hpoint⟩ := htakes.front
    rw [List.append_nil] at hspell
    rw [spell_cons, hspell]
    simp only [startsWith, List.cons_append, List.head?_cons, Option.any_some, Kind.absorbs]
    rw [Kind.mayMeet] at hmeet
    split at hmeet
    · rename_i hw
      simpa [hw, hpart] using hmeet
    · rename_i hw
      simp only [hw, Bool.false_eq_true, if_false]
      split
      · rename_i hn
        simpa [hn, hdigit, hpoint] using hmeet
      · rfl
  · obtain ⟨hkind, hspell⟩ := hu.spelling_of_unbounded hb
    have hk : k.isWord = false ∧ k ≠ .number := by
      rw [hkind] at hmeet
      cases hw : k.isWord <;> simp_all [Kind.mayMeet]
    simp [hspell, startsWith, Kind.absorbs, hk]

/-- In the text of spellable tokens the first one is taken first. -/
theorem Spellable.takes {v : Version} {t : Token} {ts : List Token} (h : Spellable v (t :: ts))
    (hb : t.IsBounded) : v.Takes (spell (t :: ts)) ⟨t.kind, t.value, t.spelling, spell ts⟩ := by
  refine (h.readIn t (by simp)).takes hb ?_
  cases ts with
  | nil => rfl
  | cons u us =>
    exact (h.readIn u (by simp)).absorbs_spell (List.isChain_cons_cons.mp h.mayMeet).1 us

/-- Spelling tokens and reading the text again places them anew. -/
theorem Spellable.tokensFrom {v : Version} {ts : List Token} (h : Spellable v ts)
    (hb : ∀ t ∈ ts, t.IsBounded) (p : Position) :
    tokensFrom v.rules p (spell ts) = .ok (placeFrom p ts) := by
  induction ts generalizing p with
  | nil =>
    rw [spell_nil, LetScript.tokensFrom]
    rfl
  | cons t ts ih =>
    have htail : Spellable v ts := ⟨fun u hu => h.readIn u (by simp [hu]), h.mayMeet.tail⟩
    rw [tokensFrom_of_takes (h.takes (hb t (by simp))), ih htail fun u hu => hb u (by simp [hu])]
    rfl

theorem tokenize_eq_ok_iff {source version : String} {ts : List Token} :
    tokenize source version = .ok ts ↔
      ∃ v, Version.ofId version = .ok v ∧ tokensFrom v.rules .start source.toList = .ok ts := by
  rw [tokenize]
  cases Version.ofId version with
  | error e => simp
  | ok v => simp [Version.tokenize]

/-- Every list of tokens that a text is read as is consistent. -/
theorem consistent_of_tokenize {source version : String} {ts : List Token}
    (h : tokenize source version = .ok ts) : ∀ t ∈ ts, t.Consistent := by
  obtain ⟨v, -, h⟩ := tokenize_eq_ok_iff.mp h
  exact fun t ht => ((spellable_of_tokensFrom h).readIn t ht).consistent

end LetScript
