import LetScript.Proofs.Relocation
import LetScript.Proofs.Scanning

/-! Reading is local to lines. No lexeme looks past a line feed, so a text is read up to
a line feed as if it ended there, and behind the line feed as if it began there, only in
lower rows. -/
namespace LetScript

/-! ### What comes behind a lexeme -/

theorem startsWith_of_front {f : Char → Bool} {c : Char} {cs rest b : List Char} (hc : f c = false)
    (hrest : rest <+: cs ++ c :: b) (hcs : startsWith f cs = false) : startsWith f rest = false := by
  cases rest with
  | nil => rfl
  | cons d rest =>
    cases cs with
    | nil =>
      obtain rfl : d = c := (List.cons_prefix_cons.mp hrest).1
      simpa [startsWith] using hc
    | cons d' cs =>
      obtain rfl : d = d' := (List.cons_prefix_cons.mp hrest).1
      simpa [startsWith] using hcs

/-- A lexeme stays the same if the text behind it is cut off or goes on with a character
that is neither part of a word nor a point. -/
theorem Version.Takes.withRest {v : Version} {cs : List Char} {l : Lexeme} (h : v.Takes cs l)
    {c : Char} (hword : isWordPart c = false) (hpoint : c ≠ '.') {rest b : List Char}
    (hrest : rest <+: l.rest ++ c :: b) : v.Takes (l.text ++ rest) { l with rest := rest } := by
  have hdigit : c.isDigit = false := by
    rw [← Bool.not_eq_true] at hword ⊢
    exact fun h => hword (isWordPart_of_isDigit h)
  cases h with
  | mark hm => exact .mark hm
  | string hq hnl hbody => simpa using Takes.string (v := v) hq hnl hbody
  | @number whole fraction rest' hne hwhole hfraction hend hafter =>
    refine .number hne hwhole hfraction (startsWith_of_front hdigit hrest hend) ?_
    rintro hf more rfl
    cases rest' with
    | nil => exact absurd (List.cons_prefix_cons.mp hrest).1.symm hpoint
    | cons d rest' =>
      obtain ⟨rfl, hmore⟩ := List.cons_prefix_cons.mp hrest
      exact startsWith_of_front hdigit hmore (hafter hf rest' rfl)
  | word hc hpart hend => exact .word hc hpart (startsWith_of_front hword hrest hend)

/-- Where reading stops it stops all the same if a line feed is put at the end, except in
front of a last carriage return. -/
theorem Version.Stops.append {v : Version} {cs : List Char} {f : Position → LexError}
    (h : v.Stops cs f) (hcs : cs ≠ ['\r']) (b : List Char) : v.Stops (cs ++ '\n' :: b) f := by
  cases h with
  | @quote q body rest hq hnl hbody hrest =>
    have hline : startsWith (· != '\n') (rest ++ '\n' :: b) = false :=
      startsWith_of_front rfl (List.prefix_refl _) hrest
    simpa using Stops.quote (v := v) hq hnl hbody hline
  | character hc => exact .character hc
  | @carriageReturn rest hrest =>
    cases rest with
    | nil => exact absurd rfl hcs
    | cons d rest =>
      refine .carriageReturn ?_
      simpa [startsWith] using hrest

/-! ### Texts one after another -/

/-- After a text that is read to its end, reading goes on with what comes behind it, if
that begins with a character that is neither part of a word nor a point. -/
theorem Version.Reads.append {v : Version} {p : Position} {a : List Char}
    {r : Except LexError (List Token)} (h : v.Reads p a r) {c : Char} (hword : isWordPart c = false)
    (hpoint : c ≠ '.') {b : List Char} {r' : Except LexError (List Token)} :
    ∀ ta, r = .ok ta → v.Reads (p.advance a) (c :: b) r' →
      v.Reads p (a ++ c :: b) (r'.map fun tb => ta ++ tb) := by
  induction h with
  | done =>
    rintro ta ⟨⟩ h'
    cases r' <;> exact h'
  | stops =>
    rintro ta ⟨⟩
  | @takes p cs l r hl _ ih =>
    intro ta hta h'
    cases r with
    | error e => cases hta
    | ok ts =>
      cases hta
      have hcs : l.text ++ l.rest = cs := hl.heads.2
      rw [← hcs, Position.advance_append] at h'
      have htail := Reads.takes (p := p) (hl.withRest hword hpoint (List.prefix_refl _))
        (ih ts rfl h')
      rw [← hcs, List.append_assoc]
      cases r' <;> exact htail

/-- The first error of a text stays if a line begins behind the text, unless it is about
a carriage return at the very end. -/
theorem Version.Reads.append_error {v : Version} {p : Position} {a : List Char}
    {r : Except LexError (List Token)} (h : v.Reads p a r) (b : List Char) :
    ∀ e, r = .error e → (∀ u tu, v.Reads p u (.ok tu) → a ≠ u ++ ['\r']) →
      v.Reads p (a ++ '\n' :: b) (.error e) := by
  induction h with
  | done =>
    rintro e ⟨⟩
  | stops hf =>
    rintro e ⟨⟩ hreturn
    exact .stops (hf.append (hreturn [] [] .done) b)
  | @takes p cs l r hl _ ih =>
    intro e he hreturn
    cases r with
    | ok ts => cases he
    | error e' =>
      cases he
      have hcs : l.text ++ l.rest = cs := hl.heads.2
      have hrest : ∀ u tu, v.Reads (p.advance l.text) u (.ok tu) → l.rest ≠ u ++ ['\r'] := by
        intro u tu hu heq
        have hfront : u <+: l.rest ++ '\n' :: b := by simp [heq]
        have hwhole := Reads.takes (p := p) (hl.withRest (by decide) (by decide) hfront) hu
        exact hreturn _ _ hwhole (by rw [← hcs, heq, List.append_assoc])
      have htail := Reads.takes (p := p) (hl.withRest (by decide) (by decide)
        (List.prefix_refl _)) (ih e rfl hrest)
      rw [← hcs, List.append_assoc]
      exact htail

/-! ### Lower rows -/

namespace Position

/-- The place `k` rows further down. -/
def lower (k : Nat) (p : Position) : Position := ⟨p.row + k, p.column⟩

@[simp] theorem step_lower (k : Nat) (p : Position) (c : Char) :
    (p.lower k).step c = (p.step c).lower k := by
  unfold step
  split
  · simp [lower, Nat.add_right_comm]
  · split <;> rfl

@[simp] theorem advance_lower (k : Nat) (p : Position) (cs : List Char) :
    (p.lower k).advance cs = (p.advance cs).lower k := by
  induction cs generalizing p with
  | nil => rfl
  | cons c cs ih => rw [advance_cons, step_lower, ih, advance_cons]

@[simp] theorem row_advance (p : Position) (cs : List Char) :
    (p.advance cs).row = p.row + cs.count '\n' := by
  induction cs generalizing p with
  | nil => rfl
  | cons c cs ih =>
    rw [advance_cons, ih, List.count_cons, step]
    by_cases hnl : c = '\n'
    · simp [hnl, Nat.add_comm, Nat.add_left_comm]
    · by_cases hcr : c = '\r' <;> simp [hnl, hcr]

theorem step_newline_advance_start (cs : List Char) :
    (start.advance cs).step '\n' = start.lower (cs.count '\n' + 1) := by
  simp [step, lower, start, Nat.add_assoc]

end Position

def LexError.relocate (g : Position → Position) : LexError → LexError
  | unsupportedVersion id => unsupportedVersion id
  | unrecognizedCharacter c p => unrecognizedCharacter c (g p)
  | unmatchedQuote q p => unmatchedQuote q (g p)

/-- What was read, with its places `k` rows further down. -/
def lowered (k : Nat) : Except LexError (List Token) → Except LexError (List Token)
  | .ok ts => .ok (ts.map (Token.relocate (Position.lower k)))
  | .error e => .error (e.relocate (Position.lower k))

theorem Version.Stops.relocate {v : Version} {cs : List Char} {f : Position → LexError}
    (h : v.Stops cs f) (g : Position → Position) (p : Position) :
    (f p).relocate g = f (g p) := by
  cases h <;> rfl

theorem Version.Reads.lower {v : Version} {p : Position} {cs : List Char}
    {r : Except LexError (List Token)} (h : v.Reads p cs r) (k : Nat) :
    v.Reads (p.lower k) cs (lowered k r) := by
  induction h with
  | done => exact .done
  | stops hf =>
    rw [lowered, hf.relocate]
    exact .stops hf
  | @takes p cs l r hl _ ih =>
    rw [← Position.advance_lower] at ih
    have hreads := Reads.takes hl ih
    cases r <;> exact hreads

/-! ### Lines of a text -/

/-- The error about a carriage return that ends a text, all of which is read up to there. -/
def LexError.IsFinalReturn (e : LexError) (source version : String) : Prop :=
  ∃ u tu, source = u ++ "\r" ∧ tokenize u version = .ok tu ∧
    e = .unrecognizedCharacter '\r' (Position.start.advance u.toList)

theorem Version.Reads.line {v : Version} {a b : List Char} {ta : List Token}
    {r : Except LexError (List Token)} (ha : v.Reads .start a (.ok ta)) (hb : v.Reads .start b r) :
    v.Reads .start (a ++ '\n' :: b) ((lowered (a.count '\n' + 1) r).map fun tb =>
      ta ++ Token.lineBreak (Position.start.advance a) :: tb) := by
  have hmark : (Kind.newline, Value.raw "\n") ∈ v.marks := by cases v <;> decide
  have hbreak : v.Takes ('\n' :: b) ⟨.newline, .raw "\n", ['\n'], b⟩ := .mark hmark
  have hbelow := hb.lower (a.count '\n' + 1)
  rw [← Position.step_newline_advance_start] at hbelow
  have hreads := ha.append (by decide) (by decide) ta rfl (.takes hbreak hbelow)
  cases r <;> exact hreads

theorem Version.Reads.final_return {v : Version} {p : Position} {u : List Char} {tu : List Token}
    (h : v.Reads p u (.ok tu)) :
    v.Reads p (u ++ ['\r']) (.error (.unrecognizedCharacter '\r' (p.advance u))) :=
  h.append (by decide) (by decide) tu rfl (.stops (.carriageReturn rfl))

/-- A line feed divides a text into two that are read on their own. -/
theorem tokenize_newline (a b version : String) :
    (∀ ta, tokenize a version = .ok ta →
      (∀ tb, tokenize b version = .ok tb →
        tokenize (a ++ "\n" ++ b) version =
          .ok (ta ++ [Token.lineBreak (Position.start.advance a.toList)] ++
            tb.map (Token.relocate (Position.lower (a.toList.count '\n' + 1))))) ∧
      ∀ e, tokenize b version = .error e →
        tokenize (a ++ "\n" ++ b) version =
          .error (e.relocate (Position.lower (a.toList.count '\n' + 1)))) ∧
    ∀ e, tokenize a version = .error e → ¬e.IsFinalReturn a version →
      tokenize (a ++ "\n" ++ b) version = .error e := by
  cases hv : Version.ofId version with
  | error e =>
    simp only [tokenize_of_unsupported hv]
    exact ⟨fun _ h => (by cases h), fun _ h _ => h⟩
  | ok v =>
    have htext : (a ++ "\n" ++ b).toList = a.toList ++ '\n' :: b.toList := by simp
    simp only [LexError.IsFinalReturn, tokenize_of_ofId hv, htext, tokensFrom_eq_iff]
    refine ⟨fun ta ha => ⟨fun tb hb => ?_, fun e hb => ha.line hb⟩, fun e ha hreturn => ?_⟩
    · simpa [lowered, Except.map] using ha.line hb
    · refine ha.append_error b.toList e rfl fun u tu hu heq => hreturn ?_
      have hfinal := hu.final_return
      rw [← heq] at hfinal
      have herror := (tokensFrom_eq_iff.mpr ha).symm.trans (tokensFrom_eq_iff.mpr hfinal)
      refine ⟨String.ofList u, tu, ?_, by rwa [String.toList_ofList], ?_⟩
      · rw [← String.toList_inj, heq]
        simp
      · rw [String.toList_ofList]
        exact Except.error.inj herror

/-- A string that holds a carriage return, an error in the second part, and two carriage
returns of which the first is the error. -/
theorem tokenize_newline_returns :
    let a := "x\r\n'\r'"
    let ta := [Token.identifier "x" ⟨1, 0⟩, .raw .newline "\r\n" ⟨1, 1⟩, .string "\r" ⟨2, 0⟩]
    let e := LexError.unrecognizedCharacter '\r' ⟨1, 0⟩
    tokenize a "1.0" = .ok ta ∧ tokenize "y" "1.0" = .ok [.identifier "y" ⟨1, 0⟩] ∧
      tokenize (a ++ "\n" ++ "y") "1.0" =
        .ok (ta ++ [.lineBreak ⟨2, 2⟩, .identifier "y" ⟨3, 0⟩]) ∧
      tokenize "1 @" "1.0" = .error (.unrecognizedCharacter '@' ⟨1, 2⟩) ∧
      tokenize (a ++ "\n" ++ "1 @") "1.0" = .error (.unrecognizedCharacter '@' ⟨3, 2⟩) ∧
      tokenize "\r\r" "1.0" = .error e ∧ ¬e.IsFinalReturn "\r\r" "1.0" ∧
      tokenize ("\r\r" ++ "\n" ++ "y") "1.0" = .error e := by
  intro a ta e
  have ha : tokenize a "1.0" = .ok ta := by decide +kernel
  have hy : tokenize "y" "1.0" = .ok [.identifier "y" ⟨1, 0⟩] := by decide +kernel
  have hat : tokenize "1 @" "1.0" = .error (.unrecognizedCharacter '@' ⟨1, 2⟩) := by decide +kernel
  have he : tokenize "\r\r" "1.0" = .error e := by decide +kernel
  have hfinal : ¬e.IsFinalReturn "\r\r" "1.0" := by
    rintro ⟨u, tu, hu, hread, -⟩
    obtain rfl : u = "\r" := by simpa using (String.append_left_inj "\r").mp hu.symm
    have hreturn : tokenize "\r" "1.0" = .error e := by decide +kernel
    rw [hreturn] at hread
    cases hread
  have hplace : Position.start.advance a.toList = ⟨2, 2⟩ := by decide
  have hrows : a.toList.count '\n' + 1 = 2 := by decide
  have hlineY := ((tokenize_newline a "y" "1.0").1 ta ha).1 _ hy
  have hlineAt := ((tokenize_newline a "1 @" "1.0").1 ta ha).2 _ hat
  rw [hplace, hrows] at hlineY
  rw [hrows] at hlineAt
  exact ⟨ha, hy, hlineY, hat, hlineAt, he, hfinal, (tokenize_newline "\r\r" "y" "1.0").2 e he hfinal⟩

end LetScript
