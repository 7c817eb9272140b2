import LetScript.Proofs.Respelling
import LetScript.Proofs.Style

/-! Formatting keeps the meaning of a text. The formatted text is read as the
mended tokens, and these stand for the same program as the tokens of the text. -/
namespace LetScript

/-! ### Mended tokens are read back -/

theorem mayMeet_of_isTrivia_left {t : Token} (u : Token) (ht : t.isTrivia) :
    t.kind.mayMeet u.kind := by
  simp only [Token.isTrivia, Kind.isTrivia, Bool.or_eq_true, beq_iff_eq] at ht
  rcases ht with h | h <;> rw [h] <;> rfl

theorem mayMeet_of_isTrivia_right (t : Token) {u : Token} (hu : u.isTrivia) :
    t.kind.mayMeet u.kind := by
  simp only [Token.isTrivia, Kind.isTrivia, Bool.or_eq_true, beq_iff_eq] at hu
  rcases hu with h | h <;> rw [h] <;> cases t.kind <;> rfl

theorem Token.IsFresh.readIn {t : Token} (h : t.IsFresh) (v : Version) : t.ReadIn v := by
  obtain ⟨p, rfl | rfl⟩ := h
  · have hmark : (Kind.whitespace, Value.raw " ") ∈ v.marks := by cases v <;> decide
    exact ⟨_, ⟨_, _, _, []⟩, .mark hmark, rfl, rfl⟩
  · have hmark : (Kind.newline, Value.raw "\n") ∈ v.marks := by cases v <;> decide
    exact ⟨_, ⟨_, _, _, []⟩, .mark hmark, rfl, rfl⟩

theorem Token.IsFresh.isBounded {t : Token} (h : t.IsFresh) : t.IsBounded := by
  intro x hx
  obtain ⟨p, rfl | rfl⟩ := h <;> cases hx

/-- Mending separates what has to stay apart, so the text can still be read. -/
theorem Spellable.mend {v : Version} {s : Sheet} (h : Spellable v s.tokens) (m : Mend) :
    Spellable v (s.mend m).tokens where
  readIn := Sheet.forall_mem_mend (fun _ ht => ht.readIn v) h.readIn
  mayMeet := Sheet.isChain_mend (fun _ u => mayMeet_of_isTrivia_left u)
    (fun t _ => mayMeet_of_isTrivia_right t) m h.mayMeet

/-! ### Placing tokens -/

@[simp] theorem spell_placeFrom (p : Position) (ts : List Token) :
    spell (placeFrom p ts) = spell ts := by
  induction ts generalizing p with
  | nil => rfl
  | cons t ts ih =>
    rw [placeFrom, spell_cons, ih, spell_cons]
    rfl

theorem map_erase_significant (ts : List Token) :
    (significant ts).map Token.erase = significant (ts.map Token.erase) := by
  rw [significant, significant, List.filter_map]
  rfl

/-! ### Formatted texts -/

/-- Whatever rules are named, the formatted text of a text with finite numbers
can be read, and it stands for the same program or has the same fault. -/
theorem formatText_sameReading (source version : String) (c : Config) (ts : List Token)
    (h : tokenize source version = .ok ts) (hb : ∀ t ∈ ts, t.IsBounded) :
    ∃ source' ts', formatText source version c = .ok source' ∧
      tokenize source' version = .ok ts' ∧ SameReading (parse ts') (parse ts) := by
  obtain ⟨v, hv, hts⟩ := tokenize_eq_ok_iff.mp h
  obtain ⟨s, rfl⟩ : ∃ s : Sheet, s.tokens = ts := ⟨.ofTokens ts, Sheet.tokens_ofTokens ts⟩
  have hspellable : Spellable v (s.mendAll c.rules).tokens :=
    Sheet.mendAll_induction (P := fun s => Spellable v s.tokens) (fun _ m hs => hs.mend m)
      (spellable_of_tokensFrom hts) c.rules
  have hbounded : ∀ t ∈ (s.mendAll c.rules).tokens, t.IsBounded :=
    Sheet.mendAll_induction (P := fun s => ∀ t ∈ s.tokens, t.IsBounded)
      (fun _ _ => Sheet.forall_mem_mend fun _ ht => ht.isBounded) hb c.rules
  have hsame : significant (s.mendAll c.rules).tokens = significant s.tokens :=
    Sheet.mendAll_induction (P := fun s' => significant s'.tokens = significant s.tokens)
      (fun _ _ hs => Sheet.significant_mend.trans hs) rfl c.rules
  have hformat : spell (format c.rules s.tokens) = spell (s.mendAll c.rules).tokens := by
    rw [format, Sheet.foldl_fix_tokens c.rules (consistent_of_tokenize h), place, spell_placeFrom]
  refine ⟨String.ofList (spell (s.mendAll c.rules).tokens),
    placeFrom .start (s.mendAll c.rules).tokens, ?_, ?_, ?_⟩
  · rw [formatText, h, ← hformat]
    rfl
  · rw [tokenize_eq_ok_iff]
    exact ⟨v, hv, by rw [String.toList_ofList]; exact hspellable.tokensFrom hbounded .start⟩
  · apply sameReading_of_erase
    rw [map_erase_significant, map_erase_placeFrom, ← map_erase_significant, hsame]

/-- The tokens of a text with a type in its other spelling, a number with a
superfluous digit, and a string in single quotes. -/
def unkempt : List Token :=
  [.raw .declarator "let" ⟨1, 0⟩, .space ⟨1, 3⟩, .identifier "x" ⟨1, 4⟩, .raw .colon ":" ⟨1, 5⟩,
   .typeName .number ⟨1, 6⟩, .operator .equal ⟨1, 12⟩,
   .number (.ofDigits ['1'] ['5', '0']) ⟨1, 13⟩, .raw .semicolon ";" ⟨1, 17⟩,
   .builtin .println ⟨1, 18⟩, .raw .openParen "(" ⟨1, 25⟩, .identifier "x" ⟨1, 26⟩,
   .operator .sum ⟨1, 27⟩, .operator .subtract ⟨1, 28⟩, .string "a" ⟨1, 29⟩,
   .raw .closeParen ")" ⟨1, 32⟩, .raw .semicolon ";" ⟨1, 33⟩]

theorem formatText_sameReading_unkempt :
    let source := "let x:Number=1.50;println(x+-'a');"
    let c : Config := ⟨["newline-before-println", "space-around-operator", "tabs",
      "space-after-colon", "space-around-operator"], 1⟩
    tokenize source "1.1" = .ok unkempt ∧ (∀ t ∈ unkempt, t.IsBounded) ∧
      ∃ source' ts', formatText source "1.1" c = .ok source' ∧
        tokenize source' "1.1" = .ok ts' ∧ SameReading (parse ts') (parse unkempt) := by
  have h : tokenize "let x:Number=1.50;println(x+-'a');" "1.1" = .ok unkempt := by decide +kernel
  have hb : ∀ t ∈ unkempt, t.IsBounded := by decide +kernel
  exact ⟨h, hb, formatText_sameReading _ _ _ unkempt h hb⟩

end LetScript
