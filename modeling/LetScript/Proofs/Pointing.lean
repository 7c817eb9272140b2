import LetScript.Diagnostic.Explain
import LetScript.Diagnostic.Terminal
import LetScript.Proofs.Remark
import LetScript.Proofs.Row
import LetScript.Proofs.Stopping

/-! Where diagnostics point. Main statement: a diagnostic with a place stands at the first
character of what it is about, and in print the first caret is under that character. -/
namespace LetScript

/-! ### Characters of a text that errors and tokens begin with -/

/-- Only a line break begins with a line feed or a carriage return. -/
theorem Version.Takes.kind_of_break {v : Version} {cs : List Char} {l : Lexeme} (h : v.Takes cs l)
    {c : Char} {more : List Char} (hl : l.text = c :: more) (hc : c = '\n' ∨ c = '\r') :
    l.kind = .newline := by
  have hmarks : ∀ m ∈ v.marks, m.2.spelling.head?.any (fun c => c = '\n' || c = '\r') →
      m.1 = .newline := by cases v <;> decide
  have hpart {d : Char} (hd : isWordPart d) : ¬ (d = '\n' ∨ d = '\r') := by
    rintro (rfl | rfl) <;> exact absurd hd (by decide)
  cases h with
  | @mark m rest hm =>
    have hspelling : m.2.spelling = c :: more := hl
    exact hmarks m hm (by rw [hspelling]; simpa using hc)
  | string hq =>
    obtain ⟨rfl, -⟩ := List.cons.inj hl
    rcases hq with rfl | rfl <;> exact absurd hc (by decide)
  | number hne hwhole =>
    obtain ⟨d, ds, rfl⟩ := List.exists_cons_of_ne_nil hne
    rw [Binary64.written_cons] at hl
    obtain ⟨rfl, -⟩ := List.cons.inj hl
    exact absurd hc (hpart (isWordPart_of_isDigit (hwhole d (by simp))))
  | word hstart =>
    obtain ⟨rfl, -⟩ := List.cons.inj hl
    exact absurd hc (hpart (isWordPart_of_isWordStart hstart))

/-- What a diagnostic can be about. -/
inductive Subject where
  | character (c : Char)
  | token (t : Token)

/-- The place of a subject in a text, and its first character there. A token begins with the
slice that it is read from. -/
inductive Begins (source version : String) : Subject → Position → Char → Prop
  | character {u w : List Char} {c : Char} {p : Position} (h : source.toList = u ++ c :: w)
      (hp : p = Position.start.advance u) : Begins source version (.character c) p c
  | token {ts : List Token} {ls : List (List Char)} {i : Nat} {t : Token} {c : Char}
      {more : List Char} (h : tokenize source version = .ok ts)
      (hls : Sliced .start source.toList ts ls) (ht : ts[i]? = some t)
      (hl : ls[i]? = some (c :: more)) : Begins source version (.token t) t.position c

/-- A subject at a place of a text. If it begins with a line break, it is one. -/
def Located (source version : String) (s : Subject) (p : Position) : Prop :=
  ∃ u c w, source.toList = u ++ c :: w ∧ p = Position.start.advance u ∧
    Begins source version s p c ∧
    (c = '\n' ∨ c = '\r' → ∃ t, s = .token t ∧ t.kind = .newline)

theorem flatten_split {ls : List (List Char)} {i : Nat} {l : List Char} (h : ls[i]? = some l) :
    ls.flatten = (ls.take i).flatten ++ (l ++ (ls.drop (i + 1)).flatten) := by
  obtain ⟨hi, rfl⟩ := List.getElem?_eq_some_iff.mp h
  rw [← List.flatten_cons, ← List.flatten_append, List.getElem_cons_drop, List.take_append_drop]

/-- Every token of a text is located in it. -/
theorem located_of_mem {source version : String} {ts : List Token}
    (h : tokenize source version = .ok ts) {t : Token} (ht : t ∈ ts) :
    Located source version (.token t) t.position := by
  obtain ⟨v, -, hts⟩ := tokenize_eq_ok_iff.mp h
  obtain ⟨ls, hls, hall⟩ := (tokensFrom_eq_iff.mp hts).exists_slices
    (R := fun t l => ∀ c more, l = c :: more → c = '\n' ∨ c = '\r' → t.kind = .newline)
    (fun _ hl _ _ heq hc => hl.kind_of_break heq hc) ts rfl
  obtain ⟨i, hi, rfl⟩ := List.mem_iff_getElem.mp ht
  obtain ⟨hlength, hpairs⟩ := List.forall₂_iff_get.mp hall
  have hil : i < ls.length := hlength ▸ hi
  obtain ⟨c, more, hslice⟩ := List.exists_cons_of_ne_nil (hls.ne_nil _ (List.getElem_mem hil))
  have hl : ls[i]? = some (c :: more) := by rw [List.getElem?_eq_getElem hil, hslice]
  have hti : ts[i]? = some ts[i] := List.getElem?_eq_getElem hi
  refine ⟨(ls.take i).flatten, c, more ++ (ls.drop (i + 1)).flatten, ?_, hls.position i _ hti,
    .token h hls hti hl, fun hc => ⟨_, rfl, hpairs i hi hil c more hslice hc⟩⟩
  rw [← hls.flatten, flatten_split hl, List.cons_append]

/-! ### Lines in print -/

/-- In print without colours, the line of the source stands above a line of carets, the first of
them under the character at the column. -/
def Underlined (source : String) (d : Diagnostic) (column : Nat) (line : List Char) : Prop :=
  ∀ file : Option String, ∃ above gutter carets below,
    (Terminal.mk source file false).render d =
      (above ++ (gutter ++ line) :: carets :: below).flatMap (· ++ ['\n']) ∧
    '\n' ∉ gutter ++ line ∧ '\n' ∉ carets ∧
    carets.idxOf? '^' = some (gutter.length + column)

namespace Terminal

@[simp] theorem paint_false (i : Ink) (cs : List Char) : paint false i cs = cs := rfl

/-- What stands in front of a line of the source. -/
def numberGutter (p : Position) : List Char :=
  (toString p.row).toList.leftpad (gutterWidth p + 1) ' ' ++ " | ".toList

@[simp] theorem length_numberGutter (p : Position) :
    (numberGutter p).length = gutterWidth p + 4 := by
  have hwidth : (toString p.row).toList.length ≤ gutterWidth p := by
    rw [String.length_toList]
    exact Nat.le_max_right 2 _
  have hbar : " | ".toList.length = 3 := rfl
  rw [numberGutter, List.length_append, List.length_leftpad, Nat.max_eq_left (by omega), hbar]

theorem newline_notMem_numberGutter (p : Position) : '\n' ∉ numberGutter p := by
  have hdigits : '\n' ∉ Nat.toDigits 10 p.row := fun h =>
    absurd (Nat.isDigit_of_mem_toDigits (by decide) (by decide) h) (by decide)
  simp [numberGutter, List.leftpad, hdigits]

@[simp] theorem sourceLine_eq (source : String) (file : Option String) (p : Position)
    (line : List Char) :
    (Terminal.mk source file false).sourceLine p line = numberGutter p ++ line := by
  simp [sourceLine, numberGutter, bar]

/-- What stands in front of the carets under a column. -/
def caretGutter (p : Position) : List Char :=
  blanks (gutterWidth p + 2) ++ "| ".toList ++ blanks p.column

theorem caretLine_eq (source : String) (file : Option String) (l : Label) (line : List Char) :
    ∃ more, (Terminal.mk source file false).caretLine l line =
      caretGutter l.position ++ '^' :: more ∧
      ('\n' ∉ (l.message.getD "").toList → '\n' ∉ more) := by
  obtain ⟨k, hk⟩ := Nat.exists_eq_add_of_le (Nat.le_max_left 1
    ((line.drop l.position.column).takeWhile isWordPart).length)
  refine ⟨List.replicate k '^' ++ ' ' :: (l.message.getD "").toList, ?_, ?_⟩
  · rw [caretLine, caretCount, hk, Nat.add_comm, List.replicate_succ]
    simp [caretGutter, emptyGutter, bar]
  · intro hmessage
    simp [hmessage]

theorem newline_notMem_caretGutter (p : Position) : '\n' ∉ caretGutter p := by
  simp [caretGutter, blanks]

/-- The first caret stands under the character at the column. -/
theorem idxOf?_caretGutter (p : Position) (more : List Char) :
    (caretGutter p ++ '^' :: more).idxOf? '^' = some ((numberGutter p).length + p.column) := by
  have hnone : (caretGutter p).findIdx? (· == '^') = none := by
    rw [List.findIdx?_eq_none_iff]
    simp [caretGutter, blanks]
  have hlength : (caretGutter p).length = (numberGutter p).length + p.column := by
    have hbar : "| ".toList.length = 2 := rfl
    simp only [length_numberGutter, caretGutter, blanks, List.length_append, List.length_replicate,
      hbar]
  rw [List.idxOf?, List.findIdx?_append, hnone, List.findIdx?_cons, hlength]
  simp

theorem underlined {source : String} {d : Diagnostic} {l : Label} {line : List Char}
    (hd : d.label = some l) (hline : lineText? source l.position.row = some line)
    (hnl : '\n' ∉ line) (hmessage : '\n' ∉ (l.message.getD "").toList) :
    Underlined source d l.position.column line := by
  intro file
  obtain ⟨more, hcarets, hmore⟩ := caretLine_eq source file l line
  let t := Terminal.mk source file false
  refine ⟨[t.headline d, t.arrowLine l.position, t.emptyGutter (gutterWidth l.position)],
    numberGutter l.position, caretGutter l.position ++ '^' :: more, t.remarkLines d, ?_, ?_, ?_,
    idxOf?_caretGutter _ _⟩
  · rw [← hcarets, ← sourceLine_eq source file, render, lines, hd]
    simp [labelLines, hline, t]
  · simp [newline_notMem_numberGutter, hnl]
  · simp [newline_notMem_caretGutter, hmore hmessage]

end Terminal

/-! ### Diagnostics of a text -/

/-- What the tools find wrong with a text. -/
inductive Issue where
  | lexical (e : LexError)
  | malformed (e : SyntaxError)
  | style (f : Finding)

namespace Issue

/-- The diagnostics of an issue. A finding is a warning in a report, and an error where linting
stops. -/
def diagnostics : Issue → List Diagnostic
  | lexical e => [e.diagnostic]
  | malformed e => [e.diagnostic]
  | style f => [f.diagnostic, f.fatalDiagnostic]

/-- Whether an issue of a text is about a subject. What stands in front of the character of a
lexical error is read as tokens, and no token begins with it. The token of another issue is the
one that the fault or the violation concerns, with the tokens of its statement around it or with
all those of the text. -/
def Concerns (source version : String) : Issue → Subject → Prop
  | lexical e, .character c => ∃ v u w f ts, Version.ofId version = .ok v ∧
      source.toList = u ++ c :: w ∧ v.Reads .start u (.ok ts) ∧ v.Stops (c :: w) f ∧
      e = f (Position.start.advance u)
  | malformed e, .token t => ∃ ts front back, tokenize source version = .ok ts ∧
      Segment (significant ts) (front ++ t :: back) ∧ e.fault.Concerns front t back
  | style f, .token t => ∃ front back, tokenize source version = .ok (front ++ t :: back) ∧
      f.violation.Concerns front t back
  | _, _ => False

def position? : Issue → Option Position
  | lexical (.unsupportedVersion _) => none
  | lexical (.unrecognizedCharacter _ p) => some p
  | lexical (.unmatchedQuote _ p) => some p
  | malformed e => some e.position
  | style f => some f.position

@[simp] theorem label_withHelp? (d : Diagnostic) (help : Option String) :
    (d.withHelp? help).label = d.label := by
  cases help <;> rfl

theorem newline_notMem_name (r : StyleRule) : '\n' ∉ r.name.toList := by
  cases r <;> simp only [StyleRule.name] <;> decide

/-- An issue with a place is labelled there, and what the label says fits on a line. -/
theorem label_of_mem {i : Issue} {d : Diagnostic} (hd : d ∈ i.diagnostics) :
    d.label.map Label.position = i.position? ∧
      ∀ l ∈ d.label, '\n' ∉ (l.message.getD "").toList := by
  cases i with
  | lexical e =>
    obtain rfl := List.mem_singleton.mp hd
    refine ⟨by cases e <;> rfl, fun l hl => ?_⟩
    cases e with
    | unsupportedVersion => cases hl
    | unrecognizedCharacter | unmatchedQuote =>
      cases hl
      rw [Option.getD_some]
      decide
  | malformed e =>
    obtain rfl := List.mem_singleton.mp hd
    rw [SyntaxError.diagnostic, label_withHelp?]
    refine ⟨rfl, fun l hl => ?_⟩
    cases hl
    rw [Option.getD_some]
    decide
  | style f =>
    have hlabel : d.label = some ⟨f.position, some f.rule.name⟩ := by
      have hwarning : f.diagnostic.label = some ⟨f.position, some f.rule.name⟩ := by
        rw [Finding.diagnostic, label_withHelp?]
        rfl
      rcases List.mem_cons.mp hd with rfl | hd
      · exact hwarning
      · obtain rfl := List.mem_singleton.mp hd
        exact hwarning
    rw [hlabel]
    refine ⟨rfl, fun l hl => ?_⟩
    cases hl
    exact newline_notMem_name f.rule

end Issue

/-- The issues of a text: errors in reading it as tokens or as a program, at once or line by
line, and what linting finds. -/
inductive Raised (source version : String) (config : Config) : Issue → Prop
  | lexical {e : LexError} (h : tokenize source version = .error e) :
      Raised source version config (.lexical e)
  | program {ts : List Token} {e : SyntaxError} (h : tokenize source version = .ok ts)
      (he : parse ts = .error e) : Raised source version config (.malformed e)
  | line {ts : List Token} {e : SyntaxError} (h : tokenize source version = .ok ts)
      (he : .error e ∈ parseEachLine ts) : Raised source version config (.malformed e)
  | finding {ts : List Token} {f : Finding} (h : tokenize source version = .ok ts)
      (hf : f ∈ findings config.rules ts) : Raised source version config (.style f)
  | stopped {f : Finding} (h : lintText source version config = .error (.style f)) :
      Raised source version config (.style f)

theorem mem_findings_of_lintText {source version : String} {config : Config} {f : Finding}
    (h : lintText source version config = .error (.style f)) :
    ∃ ts, tokenize source version = .ok ts ∧ f ∈ findings config.rules ts := by
  unfold lintText at h
  split at h
  · cases h
  · rename_i ts hts
    split at h
    · rename_i g hg
      cases h
      obtain ⟨r, hr, hhead⟩ := List.exists_of_findSome?_eq_some hg
      exact ⟨ts, hts, List.mem_flatMap.mpr ⟨r, hr, List.mem_of_mem_head? hhead⟩⟩
    · cases h

/-- Where reading stops there is the character that is reported. -/
theorem located_of_lexical {source version : String} (hr : pairedReturns source.toList)
    {e : LexError} (h : tokenize source version = .error e) {p : Position}
    (hp : (Issue.lexical e).position? = some p) :
    ∃ s, (Issue.lexical e).Concerns source version s ∧ Located source version s p := by
  cases hv : Version.ofId version with
  | error e' =>
    rw [tokenize_of_unsupported hv] at h
    cases h
    unfold Version.ofId at hv
    split at hv
    · cases hv
    · cases hv
      cases hp
  | ok v =>
    rw [tokenize_of_ofId hv, tokensFrom_eq_iff] at h
    obtain ⟨u, rest, f, ts, hsource, hu, hstops, rfl⟩ := h.exists_stops e rfl
    have concerns {c : Char} {w : List Char} (hrest : rest = c :: w) :
        (Issue.lexical (f (Position.start.advance u))).Concerns source version (.character c) :=
      ⟨v, u, w, f, ts, hv, hrest ▸ hsource, hu, hrest ▸ hstops, rfl⟩
    cases hstops with
    | @quote q body rest hq =>
      obtain rfl := Option.some.inj hp
      refine ⟨.character q, concerns rfl, u, q, body ++ rest, hsource, rfl,
        .character hsource rfl, fun hc => ?_⟩
      rcases hq with rfl | rfl <;> exact absurd hc (by decide)
    | @character c rest hopens =>
      obtain rfl := Option.some.inj hp
      refine ⟨.character c, concerns rfl, u, c, rest, hsource, rfl, .character hsource rfl,
        fun hc => ?_⟩
      rcases hc with rfl | rfl <;> cases v <;> exact absurd hopens (by decide)
    | carriageReturn hrest =>
      have hhead := head?_of_pairedReturns (hsource ▸ hr)
      simp [startsWith, hhead] at hrest

/-- Every issue with a place is about something that is located there. -/
theorem Raised.located {source version : String} {config : Config} {i : Issue}
    (h : Raised source version config i) (hr : pairedReturns source.toList) {p : Position}
    (hp : i.position? = some p) :
    ∃ s, i.Concerns source version s ∧ Located source version s p := by
  have malformed {ts : List Token} {e : SyntaxError} (h : tokenize source version = .ok ts)
      (he : .error e ∈ parseEachLine ts) :
      ∃ s, (Issue.malformed e).Concerns source version s ∧
        Located source version s e.position := by
    obtain ⟨vs, hsegment, hsub, front, t, back, rfl, hposition, hconcerns⟩ :=
      blames_significant he
    have ht : t ∈ ts := List.mem_of_mem_filter (hsub (by simp))
    rw [hposition]
    exact ⟨.token t, ⟨ts, front, back, h, hsegment, hconcerns⟩, located_of_mem h ht⟩
  have style {ts : List Token} {f : Finding} (h : tokenize source version = .ok ts)
      (hf : f ∈ findings config.rules ts) :
      ∃ s, (Issue.style f).Concerns source version s ∧ Located source version s f.position := by
    obtain ⟨r, -, hf⟩ := List.mem_flatMap.mp hf
    obtain ⟨front, t, back, rfl, hposition, hconcerns⟩ := StyleRule.names_of_check hf
    rw [hposition]
    exact ⟨.token t, ⟨front, back, h, hconcerns⟩, located_of_mem h (by simp)⟩
  cases h with
  | lexical h => exact located_of_lexical hr h hp
  | program h he =>
    obtain rfl := Option.some.inj hp
    exact malformed h (error_mem_parseEachLine he)
  | line h he =>
    obtain rfl := Option.some.inj hp
    exact malformed h he
  | finding h hf =>
    obtain rfl := Option.some.inj hp
    exact style h hf
  | stopped h =>
    obtain ⟨ts, hts, hf⟩ := mem_findings_of_lintText h
    obtain rfl := Option.some.inj hp
    exact style hts hf

/-- In a text whose carriage returns all belong to line breaks, the diagnostics of an issue are
labelled at its place, if it has one, and the first character of what it is about stands there.
That character stands in the line of the row at the column, with the first caret under it, or
else it begins a line break, which stands behind the last character of the line. -/
theorem diagnostic_points {source version : String} {config : Config} {i : Issue}
    (hr : pairedReturns source.toList) (h : Raised source version config i) {d : Diagnostic}
    (hd : d ∈ i.diagnostics) :
    d.label.map Label.position = i.position? ∧
      ∀ p, i.position? = some p →
        ∃ s c text, i.Concerns source version s ∧ Begins source version s p c ∧
          lineText? source p.row = some text ∧
          (text[p.column]? = some c ∧ Underlined source d p.column text ∨
            (∃ t, s = .token t ∧ t.kind = .newline) ∧ p.column = text.length) := by
  obtain ⟨hlabel, hmessage⟩ := Issue.label_of_mem hd
  refine ⟨hlabel, fun p hp => ?_⟩
  obtain ⟨l, hl, rfl⟩ := Option.map_eq_some_iff.mp (hlabel.trans hp)
  obtain ⟨s, hconcerns, u, c, w, hsource, hposition, hbegins, hbreak⟩ := h.located hr hp
  obtain ⟨text, hline, hnl, hstands⟩ := lineText?_standsAt hr hsource
  rw [← hposition] at hline hstands
  refine ⟨s, c, text, hconcerns, hbegins, hline, ?_⟩
  by_cases hc : c = '\n' ∨ c = '\r'
  · rw [StandsAt, if_pos hc] at hstands
    exact .inr ⟨hbreak hc, hstands⟩
  · rw [StandsAt, if_neg hc] at hstands
    exact .inl ⟨hstands, Terminal.underlined hl hline hnl (hmessage l hl)⟩

/-- A character that no token begins with, behind line breaks of two characters and a letter
outside ASCII. -/
theorem diagnostic_points_dollar :
    let source := "x=1;\r\n\r\né $"
    let e := LexError.unrecognizedCharacter '$' ⟨3, 2⟩
    pairedReturns source.toList ∧ tokenize source "1.0" = .error e ∧
      e.diagnostic.label.map Label.position = some ⟨3, 2⟩ ∧
      ∃ text, lineText? source 3 = some text ∧ text[2]? = some '$' ∧
        Underlined source e.diagnostic 2 text := by
  intro source e
  have hr : pairedReturns source.toList := by decide +kernel
  have h : tokenize source "1.0" = .error e := by decide +kernel
  obtain ⟨hlabel, hpoints⟩ := @diagnostic_points source "1.0" ⟨[], 0⟩ _ hr (.lexical h)
    e.diagnostic (List.mem_singleton.mpr rfl)
  obtain ⟨s, c, text, hconcerns, hbegins, hline, hpoints⟩ := hpoints ⟨3, 2⟩ rfl
  refine ⟨hr, h, hlabel, text, hline, ?_⟩
  cases s with
  | token => exact nomatch hconcerns
  | character =>
    cases hbegins
    obtain ⟨v, u, w, f, ts, -, -, -, hstops, he⟩ := hconcerns
    rcases hpoints with ⟨hc, hunderlined⟩ | ⟨⟨t, ht, -⟩, -⟩
    · cases hstops with
      | quote => exact LexError.noConfusion he
      | character | carriageReturn =>
        obtain ⟨hdollar, -⟩ := LexError.unrecognizedCharacter.inj he
        exact ⟨hdollar ▸ hc, hunderlined⟩
    · cases ht

end LetScript
