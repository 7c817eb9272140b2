import LetScript.Proofs.Slice
import Mathlib.Data.String.Basic

/-! Tables of rules. Main statement: of the rules of a version at most one applies at a place,
except that the rule for names applies to reserved words as well. So the order of a table only
matters between these. -/
namespace LetScript

/-! ### Rules that apply -/

namespace LexRule

/-- A rule applies in front of a text if it takes a lexeme there or finds an error. -/
def Applies (r : LexRule) (p : Position) (cs : List Char) : Prop := r.scan p cs ≠ .ok none

instance (r : LexRule) (p : Position) (cs : List Char) : Decidable (r.Applies p cs) :=
  inferInstanceAs (Decidable (_ ≠ _))

/-- The rules for words with a meaning of their own. -/
def isReserved : LexRule → Bool
  | keyword _ | booleanLiteral | typeName _ | builtin _ => true
  | _ => false

@[simp] theorem scan_nil (r : LexRule) (p : Position) : r.scan p [] = .ok none := by
  cases h : r.scan p [] with
  | error e => cases r <;> cases h
  | ok answer =>
    cases answer with
    | none => rfl
    | some l => exact absurd (scan_heads h).length_lt (by simp)

theorem Applies.exists_opens {r : LexRule} {p : Position} {cs : List Char} (h : r.Applies p cs) :
    ∃ c more, cs = c :: more ∧ r.opens c := by
  cases cs with
  | nil => exact absurd (scan_nil r p) h
  | cons c more =>
    refine ⟨c, more, rfl, ?_⟩
    rw [← Bool.not_eq_false]
    exact fun hc => h (scan_of_opens_eq_false hc p more)

/-- A rule for reserved words applies to a whole word, and that is one of its own. -/
theorem Applies.exists_word {r : LexRule} {p : Position} {cs : List Char} (h : r.Applies p cs)
    (hr : r.isReserved) :
    ∃ e ∈ r.words, e.word.toList = cs.takeWhile isWordPart ∧
      r.scan p cs = .ok (some (e.lexeme cs)) := by
  have hwords : r.words ≠ [] := by
    cases r with
    | typeName t =>
      cases t with
      | any => exact absurd rfl h
      | _ => simp [words, TypeName.spellings]
    | _ => simp_all [words, isReserved]
  have hscan := scan_words hwords p cs
  cases hat : wordAt? r.words cs with
  | none => exact absurd (by rw [hscan, hat]; rfl) h
  | some e =>
    rw [hat] at hscan
    have hword : e.word.toList = cs.takeWhile isWordPart := by simpa using List.find?_some hat
    exact ⟨e, List.mem_of_find?_eq_some hat, hword, hscan⟩

/-- The characters that the other rules know, digits apart. -/
def fronts : LexRule → List Char
  | newline => ['\r', '\n']
  | whitespace => [' ', '\t']
  | stringLiteral => ['\x22', '\x27']
  | operator o => [o.symbol]
  | symbol c _ => [c]
  | _ => []

theorem opens_cases {r : LexRule} {c : Char} (h : r.opens c) (hr : r.isReserved = false)
    (hname : r ≠ .identifier) : r = .numberLiteral ∧ c.isDigit ∨ c ∈ r.fronts := by
  cases r <;> simp_all [opens, fronts, isReserved]

end LexRule

namespace Version

variable {v : Version} {r s : LexRule} {p : Position} {cs : List Char}

theorem isWordStart_of_opens (hr : r ∈ v.rules) (hres : r.isReserved = false)
    (hname : r ≠ .identifier) {c : Char} (hc : r.opens c) : isWordStart c = false := by
  have hfronts : ∀ r ∈ v.rules, r.fronts.all fun c => !isWordStart c := by cases v <;> decide
  rcases LexRule.opens_cases hc hres hname with ⟨-, hdigit⟩ | hfront
  · exact isWordStart_of_isDigit hdigit
  · simpa using List.all_eq_true.mp (hfronts r hr) c hfront

/-- Where a rule for words applies, the others apply only to words as well. -/
theorem isReserved_of_applies (hr : r ∈ v.rules) (hname : r ≠ .identifier) (h : r.Applies p cs)
    (hs : s.isReserved ∨ s = .identifier) (h' : s.Applies p cs) : r.isReserved := by
  obtain ⟨c, more, rfl, hc⟩ := h.exists_opens
  obtain ⟨d, more', heq, hd⟩ := h'.exists_opens
  obtain ⟨rfl, rfl⟩ := List.cons.inj heq
  have hstart : isWordStart c := by
    rcases hs with hs | rfl
    · cases s <;> simp_all [LexRule.opens, LexRule.isReserved]
    · exact hd
  rw [← Bool.not_eq_false]
  intro hres
  simp [isWordStart_of_opens hr hres hname hc] at hstart

/-- Of the rules other than the one for names, at most one applies. -/
theorem eq_of_applies (hr : r ∈ v.rules) (hs : s ∈ v.rules) (hrn : r ≠ .identifier)
    (hsn : s ≠ .identifier) (h : r.Applies p cs) (h' : s.Applies p cs) : r = s := by
  have hwords : ∀ r ∈ v.rules, ∀ s ∈ v.rules, ∀ e ∈ r.words, ∀ e' ∈ s.words,
      e.word = e'.word → r = s := by cases v <;> decide +kernel
  have hfronts : ∀ r ∈ v.rules, ∀ s ∈ v.rules, r.fronts.any (s.fronts.contains ·) → r = s := by
    cases v <;> decide +kernel
  have hdigits {r : LexRule} (hr : r ∈ v.rules) {c : Char} (hc : c ∈ r.fronts) :
      c.isDigit = false := by
    have hall : ∀ r ∈ v.rules, r.fronts.all fun c => !c.isDigit := by cases v <;> decide
    simpa using List.all_eq_true.mp (hall r hr) c hc
  by_cases hres : r.isReserved
  · have hres' : s.isReserved := isReserved_of_applies hs hsn h' (.inl hres) h
    obtain ⟨e, he, hword, -⟩ := h.exists_word hres
    obtain ⟨e', he', hword', -⟩ := h'.exists_word hres'
    exact hwords r hr s hs e he e' he' (String.toList_inj.mp (hword.trans hword'.symm))
  · have hres' : ¬ s.isReserved := fun hs' => hres (isReserved_of_applies hr hrn h (.inl hs') h')
    obtain ⟨c, more, rfl, hc⟩ := h.exists_opens
    obtain ⟨d, more', heq, hd⟩ := h'.exists_opens
    obtain ⟨rfl, rfl⟩ := List.cons.inj heq
    rw [Bool.not_eq_true] at hres hres'
    rcases LexRule.opens_cases hc hres hrn with ⟨rfl, hdigit⟩ | hfront <;>
      rcases LexRule.opens_cases hd hres' hsn with ⟨rfl, hdigit'⟩ | hfront'
    · rfl
    · simp [hdigits hs hfront'] at hdigit
    · simp [hdigits hr hfront] at hdigit'
    · refine hfronts r hr s hs (List.any_eq_true.mpr ⟨c, hfront, ?_⟩)
      simpa using hfront'

/-- The name in front of a text ends where a reserved word ends there. -/
theorem scan_identifier_of_applies (hr : r ∈ v.rules) (hname : r ≠ .identifier)
    (h : r.Applies p cs) {l : Lexeme} (hl : LexRule.identifier.scan p cs = .ok (some l)) :
    r.isReserved ∧ ∃ e ∈ r.words, l.kind = .identifier ∧ l.value = .raw e.word ∧
      l.text = e.word.toList ∧ r.scan p cs = .ok (some (e.lexeme cs)) := by
  have happlies : LexRule.identifier.Applies p cs := by
    intro hnone
    rw [hl] at hnone
    cases hnone
  have hres := isReserved_of_applies hr hname h (.inr rfl) happlies
  obtain ⟨e, he, hword, hscan⟩ := h.exists_word hres
  obtain ⟨c, more, rfl, hc⟩ := happlies.exists_opens
  have hstart : isWordStart c := hc
  simp only [LexRule.scan, LexRule.identifier?, hstart, if_true, Except.ok.injEq,
    Option.some.injEq] at hl
  rw [List.takeWhile_cons_of_pos (isWordPart_of_isWordStart hstart)] at hword
  subst hl
  refine ⟨hres, e, he, rfl, ?_, hword.symm, hscan⟩
  rw [← hword, String.ofList_toList]

end Version

/-! ### The order of a table -/

/-- No rule for reserved words stands behind the one for names. -/
def ReservedFirst (rs : List LexRule) : Prop :=
  rs.Pairwise fun r s => r = .identifier → s.isReserved = false

instance (rs : List LexRule) : Decidable (ReservedFirst rs) :=
  inferInstanceAs (Decidable (rs.Pairwise _))

/-- The rules of a table that apply in front of a text. -/
def applicable (p : Position) (cs : List Char) (rs : List LexRule) : List LexRule :=
  rs.filter fun r => r.Applies p cs

@[simp] theorem mem_applicable {p : Position} {cs : List Char} {rs : List LexRule} {r : LexRule} :
    r ∈ applicable p cs rs ↔ r ∈ rs ∧ r.Applies p cs := by
  simp only [applicable, List.mem_filter, decide_eq_true_eq]

theorem firstLexeme_applicable (p : Position) (cs : List Char) (rs : List LexRule) :
    firstLexeme p cs rs = firstLexeme p cs (applicable p cs rs) :=
  firstLexeme_filter_of (fun _ hr => Decidable.not_not.mp (of_decide_eq_false hr)) rs

theorem applicable_of_perm {v : Version} {rs : List LexRule} (hperm : rs.Perm v.rules)
    (hrs : ReservedFirst rs) (p : Position) (cs : List Char) :
    applicable p cs rs = applicable p cs v.rules := by
  have hrules : ReservedFirst v.rules := by cases v <;> decide
  refine List.Perm.eq_of_pairwise (fun r s hr hs hrs hsr => ?_) (hrs.filter _) (hrules.filter _)
    (hperm.filter _)
  obtain ⟨hr, happlies⟩ := mem_applicable.mp hr
  obtain ⟨hs, happlies'⟩ := mem_applicable.mp hs
  rw [hperm.mem_iff] at hr
  by_cases hrn : r = .identifier
  · by_cases hsn : s = .identifier
    · rw [hrn, hsn]
    · have := Version.isReserved_of_applies hs hsn happlies' (.inr hrn) happlies
      simp [hrs hrn] at this
  · by_cases hsn : s = .identifier
    · have := Version.isReserved_of_applies hr hrn happlies (.inr hsn) happlies'
      simp [hsr hsn] at this
    · exact Version.eq_of_applies hr hs hrn hsn happlies happlies'

/-- Tables that always agree on the first lexeme agree on whole texts. -/
theorem tokensFrom_congr {rs rs' : List LexRule}
    (h : ∀ p cs, firstLexeme p cs rs = firstLexeme p cs rs') (p : Position) (cs : List Char) :
    tokensFrom rs p cs = tokensFrom rs' p cs := by
  cases cs with
  | nil => rw [tokensFrom, tokensFrom]
  | cons c cs =>
    rw [tokensFrom_cons, tokensFrom_cons, h]
    cases hl : firstLexeme p (c :: cs) rs' with
    | error e => rfl
    | ok answer =>
      cases answer with
      | none => rfl
      | some l => simp only [tokensFrom_congr h (p.advance l.text) l.rest]
termination_by cs.length
decreasing_by exact (firstLexeme_heads hl).length_lt

/-! ### Reserved words -/

/-- A token stands for a word that is reserved in a version. -/
def Token.IsReserved (t : Token) (v : Version) : Prop :=
  ∃ e ∈ v.reserved, t.kind = e.kind ∧ t.value = e.value

/-- A text is the spelling of a word that is reserved in a version. -/
def Version.Reserves (v : Version) (w : List Char) : Prop := ∃ e ∈ v.reserved, e.word.toList = w

namespace Version

variable {v : Version}

theorem kind_of_reserved (v : Version) :
    ∀ e ∈ v.reserved, e.kind.isWord ∧ e.kind ≠ .identifier := by
  cases v <;> decide

theorem meaning_eq_iff {w : List Char} :
    (∃ e ∈ v.reserved, v.meaning w = (e.kind, e.value)) ↔ v.Reserves w := by
  constructor
  · rintro ⟨e, he, hmeaning⟩
    rcases v.meaning_cases w with ⟨e', he', hw, -⟩ | hname
    · exact ⟨e', he', hw⟩
    · rw [hname] at hmeaning
      exact absurd (congrArg Prod.fst hmeaning).symm (v.kind_of_reserved e he).2
  · rintro ⟨e, he, hw⟩
    cases hfind : v.reserved.find? fun e => e.word.toList = w with
    | none => exact absurd (decide_eq_true hw) (List.find?_eq_none.mp hfind e he)
    | some e' => exact ⟨e', List.mem_of_find?_eq_some hfind, by rw [meaning, hfind]⟩

/-- A lexeme is a reserved word exactly if the longest name in its place is spelled like one. -/
theorem Takes.isReserved_iff {cs : List Char} {l : Lexeme} (h : v.Takes cs l) (p : Position) :
    (l.token p).IsReserved v ↔
      ∃ n, LexRule.identifier? cs = some n ∧ v.Reserves n.text := by
  by_cases hword : l.kind.isWord
  · cases h with
    | mark hm => simp [(v.marks_front _ hm).1] at hword
    | string => cases hword
    | number => cases hword
    | @word c w rest hc hpart hrest =>
      obtain ⟨htake, -⟩ := takeWhile_append_of_startsWith hpart hrest
      simp [LexRule.identifier?, hc, htake, ← meaning_eq_iff, Token.IsReserved, Lexeme.token,
        Prod.ext_iff]
  · obtain ⟨c, more, rfl, hpart, hdigit, -⟩ := h.front
    have hstart : isWordStart c = false := by
      by_cases hnumber : l.kind = .number
      · exact isWordStart_of_isDigit (by simpa [hnumber] using hdigit)
      · rw [← Bool.not_eq_true]
        intro hc
        simp [isWordPart_of_isWordStart hc, hword, hnumber] at hpart
    constructor
    · rintro ⟨e, he, hkind, -⟩
      have hkind : l.kind = e.kind := hkind
      exact absurd (hkind ▸ (v.kind_of_reserved e he).1) hword
    · rintro ⟨n, hn, -⟩
      simp [LexRule.identifier?, hstart] at hn

/-- A name is never spelled like a reserved word. -/
theorem Takes.value_ne_of_identifier {cs : List Char} {l : Lexeme} (h : v.Takes cs l)
    (hkind : l.kind = .identifier) : ∀ e ∈ v.reserved, l.value ≠ .raw e.word := by
  intro e he hvalue
  cases h with
  | @mark m rest hm =>
    have hkind : m.1 = .identifier := hkind
    simpa [hkind, Kind.isWord] using (v.marks_front m hm).1
  | string => cases hkind
  | number => cases hkind
  | @word c w rest =>
    rcases v.meaning_cases (c :: w) with ⟨e', he', -, hmeaning⟩ | hname
    · exact (v.kind_of_reserved e' he').2 (by simpa [hmeaning] using hkind)
    · have hspelled : v.Reserves (c :: w) := by
        have hword : String.ofList (c :: w) = e.word := by simpa [hname] using hvalue
        exact ⟨e, he, by rw [← hword, String.toList_ofList]⟩
      obtain ⟨e', he', hmeaning⟩ := meaning_eq_iff.mpr hspelled
      rw [hmeaning] at hname
      exact (v.kind_of_reserved e' he').2 (congrArg Prod.fst hname)

/-- Every token is the lexeme that is taken from the text where its slice begins. -/
theorem Reads.exists_taken {p : Position} {cs : List Char} {r : Except LexError (List Token)}
    (h : v.Reads p cs r) :
    ∀ ts, r = .ok ts → ∃ ls, Sliced p cs ts ls ∧
      ∀ i t, ts[i]? = some t → ∃ l, v.Takes (ls.drop i).flatten l ∧ t = l.token t.position := by
  induction h with
  | done =>
    rintro ts ⟨⟩
    exact ⟨[], ⟨rfl, by simp, .nil, by simp, .nil⟩, by simp⟩
  | stops =>
    rintro ts ⟨⟩
  | @takes p cs l r hl _ ih =>
    intro ts hts
    cases r with
    | error e => cases hts
    | ok ts' =>
      obtain ⟨ls, hls, htaken⟩ := ih ts' rfl
      cases hts
      have hcons : Sliced p cs (l.token p :: ts') (l.text :: ls) := .cons hl hls
      refine ⟨l.text :: ls, hcons, fun i t ht => ?_⟩
      cases i with
      | zero =>
        obtain rfl : l.token p = t := by simpa using ht
        exact ⟨l, by rwa [List.drop_zero, hcons.flatten], rfl⟩
      | succ i => exact htaken i t ht

end Version

/-! ### Offsets -/

@[simp] theorem dropBytes_append (u w : List Char) : dropBytes (String.utf8Len u) (u ++ w) = w := by
  induction u with
  | nil => cases w <;> rfl
  | cons c u ih =>
    have hpos := c.utf8Size_pos
    obtain ⟨n, hn⟩ : ∃ n, String.utf8Len (c :: u) = n + 1 :=
      ⟨String.utf8Len u + c.utf8Size - 1, by rw [String.utf8Len_cons]; omega⟩
    have hrest : n + 1 - c.utf8Size = String.utf8Len u := by
      rw [← hn, String.utf8Len_cons, Nat.add_sub_cancel]
    rw [hn, List.cons_append, dropBytes, hrest, ih]

/-- At the end of a first part a rule is applied to the second. -/
@[simp] theorem LexRule.scanAt_append (r : LexRule) (before rest : String) (p : Position) :
    r.scanAt (before ++ rest) before.utf8ByteSize p =
      (r.scan p rest.toList).map fun answer => answer.map fun l =>
        (l.token p, before.utf8ByteSize + (String.ofList l.text).utf8ByteSize) := by
  rw [scanAt, String.toList_append, ← String.utf8Len_toList, dropBytes_append]
  cases r.scan p rest.toList with
  | error e => rfl
  | ok answer => cases answer <;> rfl

theorem LexRule.scanAt_append_ne {r : LexRule} {before rest : String} {p : Position} :
    r.scanAt (before ++ rest) before.utf8ByteSize p ≠ .ok none ↔ r.Applies p rest.toList := by
  rw [scanAt_append, Applies]
  cases r.scan p rest.toList with
  | error e => simp [Except.map]
  | ok answer => cases answer <;> simp [Except.map]

theorem LexRule.scanAt_append_eq_some {r : LexRule} {before rest : String} {p : Position} {t : Token}
    {stop : Nat} :
    r.scanAt (before ++ rest) before.utf8ByteSize p = .ok (some (t, stop)) ↔
      ∃ l, r.scan p rest.toList = .ok (some l) ∧ l.token p = t ∧
        before.utf8ByteSize + (String.ofList l.text).utf8ByteSize = stop := by
  rw [scanAt_append]
  cases r.scan p rest.toList with
  | error e => simp [Except.map]
  | ok answer => cases answer <;> simp [Except.map]

theorem length_le_one_of_forall_eq {α : Type} {as : List α} (hnodup : as.Nodup)
    (h : ∀ a ∈ as, ∀ b ∈ as, a = b) : as.length ≤ 1 := by
  rcases as with _ | ⟨a, _ | ⟨b, as⟩⟩
  · simp
  · simp
  · obtain rfl : a = b := h a (by simp) b (by simp)
    simp at hnodup

/-- At a place of a text at most one rule applies besides the one for names. If that one applies
too, then to a reserved word of the other rule, and both end where the word ends. So a token is a
reserved word exactly if the longest name in its place is spelled like one, no name is spelled so,
and the order of the rules makes no difference as long as reserved words come before names. -/
theorem Version.rules_unambiguous (v : Version) :
    (∀ (before rest : String) (p : Position),
      let scan (r : LexRule) := r.scanAt (before ++ rest) before.utf8ByteSize p
      (v.rules.filter fun r => r ≠ .identifier ∧ scan r ≠ .ok none).length ≤ 1 ∧
      ∀ t stop, scan .identifier = .ok (some (t, stop)) →
        ∀ r ∈ v.rules, r ≠ .identifier → scan r ≠ .ok none →
          r.isReserved ∧ ∃ e ∈ r.words, t = .identifier e.word p ∧
            stop = before.utf8ByteSize + e.word.utf8ByteSize ∧
            scan r = .ok (some (⟨e.kind, e.value, p⟩, stop))) ∧
    (∀ source ts, v.tokenize source = .ok ts →
      (∃ ls, Sliced .start source.toList ts ls ∧ ∀ i t, ts[i]? = some t →
        (t.IsReserved v ↔
          ∃ n, LexRule.identifier? (ls.drop i).flatten = some n ∧ v.Reserves n.text)) ∧
      ∀ t ∈ ts, t.kind = .identifier → ∀ e ∈ v.reserved, t.value ≠ .raw e.word) ∧
    ∀ rs, rs.Perm v.rules → ReservedFirst rs →
      ∀ source : String, tokensFrom rs .start source.toList = v.tokenize source := by
  refine ⟨fun before rest p => ⟨?_, fun t stop hname r hr hrn happlies => ?_⟩,
    fun source ts hts => ?_, fun rs hperm hrs source => ?_⟩
  · have hnodup : v.rules.Nodup := by cases v <;> decide
    refine length_le_one_of_forall_eq (hnodup.filter _) fun r hr s hs => ?_
    simp only [List.mem_filter, decide_eq_true_eq, LexRule.scanAt_append_ne] at hr hs
    exact eq_of_applies hr.1 hs.1 hr.2.1 hs.2.1 hr.2.2 hs.2.2
  · obtain ⟨l, hl, rfl, rfl⟩ := LexRule.scanAt_append_eq_some.mp hname
    obtain ⟨hres, e, he, hkind, hvalue, htext, hscan⟩ :=
      scan_identifier_of_applies hr hrn (LexRule.scanAt_append_ne.mp happlies) hl
    have hword : String.ofList l.text = e.word := by rw [htext, String.ofList_toList]
    refine ⟨hres, e, he, ?_, by rw [hword], LexRule.scanAt_append_eq_some.mpr ⟨_, hscan, rfl, ?_⟩⟩
    · rw [Lexeme.token, hkind, hvalue]
      rfl
    · rw [FixedWord.lexeme, String.ofList_toList, hword]
  · obtain ⟨ls, hls, htaken⟩ := (tokensFrom_eq_iff.mp hts).exists_taken ts rfl
    refine ⟨⟨ls, hls, fun i t ht => ?_⟩, fun t ht hkind => ?_⟩
    · obtain ⟨l, hl, heq⟩ := htaken i t ht
      rw [heq]
      exact hl.isReserved_iff _
    · obtain ⟨i, hi⟩ := List.mem_iff_getElem?.mp ht
      obtain ⟨l, hl, heq⟩ := htaken i t hi
      rw [heq] at hkind ⊢
      exact hl.value_ne_of_identifier hkind
  · refine tokensFrom_congr (fun p cs => ?_) .start source.toList
    rw [firstLexeme_applicable, applicable_of_perm hperm hrs, ← firstLexeme_applicable]

/-- A reserved word that is also the beginning of a name, and a table turned round with the rule
for names at its end. -/
theorem Version.rules_unambiguous_iffy :
    let scan (r : LexRule) := r.scanAt ("let " ++ "if(") "let ".utf8ByteSize ⟨1, 4⟩
    let ts := [Token.identifier "iffy" ⟨1, 0⟩, .space ⟨1, 4⟩, .raw .ifWord "if" ⟨1, 5⟩]
    let rs := (Version.v11.rules.erase .identifier).reverse ++ [.identifier]
    (scan .identifier = .ok (some (.identifier "if" ⟨1, 4⟩, 6)) ∧
      LexRule.keyword .if_ ∈ Version.v11.rules ∧ scan (.keyword .if_) ≠ .ok none ∧
      ∃ e ∈ LexRule.words (.keyword .if_), Token.identifier "if" ⟨1, 4⟩ = .identifier e.word ⟨1, 4⟩ ∧
        scan (.keyword .if_) = .ok (some (⟨e.kind, e.value, ⟨1, 4⟩⟩, 6))) ∧
    (Version.v11.tokenize "iffy if" = .ok ts ∧ Token.identifier "iffy" ⟨1, 0⟩ ∈ ts ∧
      ∀ e ∈ Version.v11.reserved, (Token.identifier "iffy" ⟨1, 0⟩).value ≠ .raw e.word) ∧
    rs.Perm Version.v11.rules ∧ ReservedFirst rs ∧
      tokensFrom rs .start "iffy if".toList = Version.v11.tokenize "iffy if" := by
  intro scan ts rs
  obtain ⟨hplace, htokens, horder⟩ := Version.rules_unambiguous .v11
  have hname : scan .identifier = .ok (some (.identifier "if" ⟨1, 4⟩, 6)) := by decide +kernel
  have hword : scan (.keyword .if_) ≠ .ok none := by decide +kernel
  have hts : Version.v11.tokenize "iffy if" = .ok ts := by decide +kernel
  have hperm : rs.Perm Version.v11.rules := by decide
  have hrs : ReservedFirst rs := by decide
  obtain ⟨-, e, he, heq, -, hscan⟩ := (hplace "let " "if(" ⟨1, 4⟩).2 _ _ hname (.keyword .if_)
    (by decide) (by decide) hword
  exact ⟨⟨hname, by decide, hword, e, he, heq, hscan⟩,
    ⟨hts, by decide, (htokens _ ts hts).2 _ (by decide) rfl⟩, hperm, hrs, horder rs hperm hrs _⟩

end LetScript
