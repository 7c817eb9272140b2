import LetScript.Proofs.Scanning

/-! Version 1.1 extends version 1.0. Both cut a text at the same places, and only the
words that the newer version adds and the braces make a difference. -/
namespace LetScript

/-- The words that version 1.1 adds, which are names in version 1.0. -/
def newWords : List FixedWord :=
  [⟨"const", .declarator, .raw "const"⟩, ⟨"if", .ifWord, .raw "if"⟩,
   ⟨"else", .elseWord, .raw "else"⟩, ⟨"true", .boolean, .boolean true⟩,
   ⟨"false", .boolean, .boolean false⟩, ⟨"Boolean", .typeName, .typeName .boolean⟩,
   ⟨"boolean", .typeName, .typeName .boolean⟩, ⟨"readInput", .builtin, .builtin .readInput⟩,
   ⟨"readEnv", .builtin, .builtin .readEnv⟩]

/-- What a kind with its value becomes: a name that is a new word gets the meaning of the
word, and all else stays as it is. -/
def promoted (m : Kind × Value) : Kind × Value :=
  match newWords.find? fun e => m = (.identifier, .raw e.word) with
  | some e => (e.kind, e.value)
  | none => m

theorem promoted_eq_self {m : Kind × Value}
    (h : ∀ e ∈ newWords, m ≠ (.identifier, .raw e.word)) : promoted m = m := by
  have hnone : newWords.find? (fun e => m = (.identifier, .raw e.word)) = none := by
    rw [List.find?_eq_none]
    exact fun e he heq => h e he (of_decide_eq_true heq)
  rw [promoted, hnone]

def Token.promote (t : Token) : Token :=
  ⟨(promoted (t.kind, t.value)).1, (promoted (t.kind, t.value)).2, t.position⟩

def Lexeme.promote (l : Lexeme) : Lexeme :=
  ⟨(promoted (l.kind, l.value)).1, (promoted (l.kind, l.value)).2, l.text, l.rest⟩

theorem Lexeme.promote_of_kind_ne {l : Lexeme} (h : l.kind ≠ .identifier) : l.promote = l := by
  have hself : promoted (l.kind, l.value) = (l.kind, l.value) :=
    promoted_eq_self fun e _ heq => h (congrArg Prod.fst heq)
  rw [promote, hself]

/-- A word that is new has a meaning in version 1.1, and every other word the one that it
had. -/
@[simp] theorem promoted_meaning (w : List Char) :
    promoted (Version.v10.meaning w) = Version.v11.meaning w := by
  have hreserved : ∀ e ∈ Version.v11.reserved,
      promoted (Version.v10.meaning e.word.toList) = Version.v11.meaning e.word.toList := by decide
  have hnames : ∀ e ∈ Version.v10.reserved ++ newWords,
      (Version.v11.meaning e.word.toList).1 ≠ .identifier := by decide
  rcases Version.v11.meaning_cases w with ⟨e, he, rfl, -⟩ | hname
  · exact hreserved e he
  · have hold : Version.v10.meaning w = (.identifier, .raw (String.ofList w)) := by
      rcases Version.v10.meaning_cases w with ⟨e, he, rfl, -⟩ | h
      · exact absurd (congrArg Prod.fst hname) (hnames e (List.mem_append_left _ he))
      · exact h
    rw [hold, hname]
    refine promoted_eq_self fun e he heq => ?_
    obtain rfl : w = e.word.toList := by
      have hw : String.ofList w = e.word := by simpa using heq
      rw [← hw, String.toList_ofList]
    exact hnames e (List.mem_append_right _ he) (congrArg Prod.fst hname)

/-- Both versions take the same text from the front of a text. -/
theorem Version.Takes.promote {cs : List Char} {l : Lexeme} (h : Version.v10.Takes cs l) :
    Version.v11.Takes cs l.promote := by
  have hmarks : ∀ m ∈ Version.v10.marks, m ∈ Version.v11.marks ∧ m.1 ≠ .identifier := by decide
  cases h with
  | mark hm =>
    rw [Lexeme.promote_of_kind_ne (hmarks _ hm).2]
    exact .mark (hmarks _ hm).1
  | string hq hnl hbody =>
    rw [Lexeme.promote_of_kind_ne (by simp)]
    exact .string hq hnl hbody
  | number hne hwhole hfraction hrest hpoint =>
    rw [Lexeme.promote_of_kind_ne (by simp)]
    exact .number hne hwhole hfraction hrest hpoint
  | @word c w rest hc hpart hrest =>
    have h : Version.v11.Takes _ _ := .word hc hpart hrest
    rwa [← promoted_meaning (c :: w)] at h

/-- The error of version 1.0 at a brace. -/
def LexError.isAboutBrace : LexError → Bool
  | unrecognizedCharacter c _ => c == '\x7b' || c == '\x7d'
  | _ => false

theorem Version.opens_v11 (c : Char) :
    Version.v11.opens c = (Version.v10.opens c || c == '\x7b' || c == '\x7d') := by
  simp only [opens, rules, List.any_cons, List.any_nil, LexRule.opens]
  grind

theorem Version.Stops.promote {cs : List Char} {f : Position → LexError}
    (h : Version.v10.Stops cs f) (p : Position) (hf : (f p).isAboutBrace = false) :
    Version.v11.Stops cs f := by
  cases h with
  | quote hq hnl hbody hrest => exact .quote hq hnl hbody hrest
  | @character c rest hc =>
    refine .character ?_
    rw [opens_v11, hc, Bool.false_or]
    exact hf
  | carriageReturn hrest => exact .carriageReturn hrest

theorem Version.Reads.promote {p : Position} {cs : List Char} {r : Except LexError (List Token)}
    (h : Version.v10.Reads p cs r) (hr : ∀ e, r = .error e → e.isAboutBrace = false) :
    Version.v11.Reads p cs (r.map (List.map Token.promote)) := by
  induction h with
  | done => exact .done
  | stops hf => exact .stops (hf.promote _ (hr _ rfl))
  | @takes p cs l r hl _ ih =>
    have htail := ih fun e he => hr e (by rw [he]; rfl)
    have hreads := Reads.takes (p := p) hl.promote htail
    cases r with
    | error e => exact hreads
    | ok ts => exact hreads

/-- A text that version 1.0 reads is read by version 1.1 as the same tokens in the same
places, but for names that are new words. A text that version 1.0 refuses, unless for a
brace, is refused by version 1.1 with the same error. -/
theorem tokenize_promote (source : String) :
    (∀ ts, tokenize source "1.0" = .ok ts →
      tokenize source "1.1" = .ok (ts.map Token.promote)) ∧
    ∀ e, tokenize source "1.0" = .error e → e.isAboutBrace = false →
      tokenize source "1.1" = .error e := by
  have hold : tokenize source "1.0" = tokensFrom Version.v10.rules .start source.toList := rfl
  have hnew : tokenize source "1.1" = tokensFrom Version.v11.rules .start source.toList := rfl
  rw [hold, hnew]
  refine ⟨fun ts h => ?_, fun e h he => ?_⟩
  · exact tokensFrom_eq_iff.mpr ((tokensFrom_eq_iff.mp h).promote fun e he => by cases he)
  · refine tokensFrom_eq_iff.mpr ((tokensFrom_eq_iff.mp h).promote fun e' he' => ?_)
    cases he'
    exact he

/-- A new word at the front of a longer one is no word, and a quotation mark that is left
open is an error in both versions. -/
theorem tokenize_promote_newWords :
    let source := "const iff:boolean=true"
    let ts := [Token.identifier "const" ⟨1, 0⟩, .space ⟨1, 5⟩, .identifier "iff" ⟨1, 6⟩,
      .raw .colon ":" ⟨1, 9⟩, .identifier "boolean" ⟨1, 10⟩, .operator .equal ⟨1, 17⟩,
      .identifier "true" ⟨1, 18⟩]
    let us := [Token.raw .declarator "const" ⟨1, 0⟩, .space ⟨1, 5⟩, .identifier "iff" ⟨1, 6⟩,
      .raw .colon ":" ⟨1, 9⟩, .typeName .boolean ⟨1, 10⟩, .operator .equal ⟨1, 17⟩,
      .boolean true ⟨1, 18⟩]
    let e := LexError.unmatchedQuote '\x22' ⟨2, 5⟩
    tokenize source "1.0" = .ok ts ∧ ts.map Token.promote = us ∧ tokenize source "1.1" = .ok us ∧
      tokenize "if\nelse \x22\x7b" "1.0" = .error e ∧ e.isAboutBrace = false ∧
      tokenize "if\nelse \x22\x7b" "1.1" = .error e := by
  intro source ts us e
  have h : tokenize source "1.0" = .ok ts := by decide +kernel
  have hus : ts.map Token.promote = us := by decide
  have he : tokenize "if\nelse \x22\x7b" "1.0" = .error e := by decide +kernel
  refine ⟨h, hus, ?_, he, rfl, (tokenize_promote _).2 e he rfl⟩
  rw [← hus]
  exact (tokenize_promote source).1 ts h

end LetScript
