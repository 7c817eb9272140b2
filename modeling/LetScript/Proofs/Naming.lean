import LetScript.Proofs.Words
import LetScript.Text.Character

/-! Names made of the words of a name. Main statement: a converted name passes the test of its
own style just if the characters of the name are basic Latin ones and, where the style needs a
letter to begin with, the first of them is a letter. A second conversion changes nothing. -/
namespace LetScript
namespace Naming

/-! ### What words are made of -/

/-- A word is not empty and holds no underscore and no capital letter. -/
structure IsWord (w : List Char) : Prop where
  ne_nil : w ≠ []
  small : w.all isSmall

theorem isWord_toLower {c : Char} (hc : c ≠ '_') : IsWord [c.toLower] :=
  ⟨by simp, by simp [isSmall_toLower hc]⟩

theorem isWord_of_mem_closed {current w : List Char} (hcur : current.all isSmall)
    (hw : w ∈ closed current) : IsWord w := by
  by_cases h : current = []
  · simp [h] at hw
  · rw [closed_of_ne_nil h, List.mem_singleton] at hw
    subst hw
    exact ⟨h, hcur⟩

theorem isWord_of_mem_wordsFrom {current cs w : List Char} (hcur : current.all isSmall)
    (hw : w ∈ wordsFrom current cs) : IsWord w := by
  induction cs generalizing current with
  | nil => exact isWord_of_mem_closed hcur hw
  | cons c cs ih =>
    rcases underscore_or_upper_or_small c with rfl | hc | hc
    · rw [wordsFrom_underscore, List.mem_append] at hw
      exact hw.elim (isWord_of_mem_closed hcur) (ih rfl)
    · have hlow := isWord_toLower (ne_underscore_of_isUpper hc)
      rw [wordsFrom_upper hcur hc, List.mem_append] at hw
      exact hw.elim (isWord_of_mem_closed hcur) (ih hlow.small)
    · rw [wordsFrom_small hc] at hw
      exact ih (by simpa [hc] using hcur) hw

theorem isWord_of_mem_words {cs w : List Char} (hw : w ∈ words cs) : IsWord w :=
  isWord_of_mem_wordsFrom rfl hw

@[simp] theorem flatten_wordsFrom (current cs : List Char) :
    (wordsFrom current cs).flatten = current ++ (cs.filter (· != '_')).map Char.toLower := by
  induction cs generalizing current with
  | nil => simp
  | cons c cs ih =>
    by_cases hc : c = '_'
    · subst hc
      simp [ih]
    · rw [wordsFrom, if_neg hc]
      split <;> simp [ih, hc]

/-- The words of a name hold its characters, but for the underscores. -/
@[simp] theorem flatten_words (cs : List Char) :
    (words cs).flatten = (cs.filter (· != '_')).map Char.toLower := flatten_wordsFrom [] cs

/-! ### Words joined with capital letters -/

/-- Words behind one another, each but the first with a capital letter. -/
def joinWords : List (List Char) → List Char
  | [] => []
  | w :: ws => w ++ ws.flatMap capitalize

theorem toCamelCase_eq (cs : List Char) : toCamelCase cs = joinWords (words cs) := rfl

theorem capitalize_append {w : List Char} (hw : w ≠ []) (cs : List Char) :
    capitalize (w ++ cs) = capitalize w ++ cs := by
  cases w with
  | nil => exact absurd rfl hw
  | cons c w => rfl

theorem flatMap_capitalize {ws : List (List Char)} (hws : ∀ w ∈ ws, w ≠ []) :
    ws.flatMap capitalize = capitalize (joinWords ws) := by
  cases ws with
  | nil => rfl
  | cons w ws => rw [List.flatMap_cons, joinWords, capitalize_append (hws w (by simp))]

theorem toPascalCase_eq (cs : List Char) : toPascalCase cs = capitalize (toCamelCase cs) :=
  flatMap_capitalize fun _ hw => (isWord_of_mem_words hw).ne_nil

/-- Where there is no underscore, cutting and joining changes nothing behind the word so far. -/
theorem joinWords_wordsFrom {current cs : List Char} (hcur : IsWord current) (hcs : '_' ∉ cs) :
    joinWords (wordsFrom current cs) = current ++ cs := by
  induction cs generalizing current with
  | nil => simp [closed_of_ne_nil hcur.ne_nil, joinWords]
  | cons c cs ih =>
    have hne : c ≠ '_' := (List.ne_of_not_mem_cons hcs).symm
    have htail : '_' ∉ cs := List.not_mem_of_not_mem_cons hcs
    rcases underscore_or_upper_or_small c with hc | hc | hc
    · exact absurd hc hne
    · have hlow := isWord_toLower hne
      have hwords : ∀ w ∈ wordsFrom [c.toLower] cs, w ≠ [] :=
        fun w hw => (isWord_of_mem_wordsFrom hlow.small hw).ne_nil
      have hup : c.toUpper = c := Char.toUpper_eq_of_not_isLower (Char.not_isLower_of_isUpper hc)
      rw [wordsFrom_upper hcur.small hc, closed_of_ne_nil hcur.ne_nil, List.singleton_append,
        joinWords, flatMap_capitalize hwords, ih hlow htail]
      simp [capitalize, hup]
    · have hgrown : IsWord (current ++ [c]) := ⟨by simp, by simpa [hc] using hcur.small⟩
      rw [wordsFrom_small hc, ih hgrown htail, List.append_assoc, List.singleton_append]

/-! ### Tests that do not look at the case of a letter -/

section Caseless

variable {p : Char → Bool} (hp : ∀ c, c.isAlpha → p c)

include hp

theorem toUpper_caseless (c : Char) : p c.toUpper = p c := by
  by_cases hc : c.isAlpha
  · rw [hp c hc, hp c.toUpper (by simpa using hc)]
  · have hlow : ¬ c.isLower := fun h => hc (by simp [Char.isAlpha, h])
    rw [Char.toUpper_eq_of_not_isLower hlow]

@[simp] theorem all_capitalize (cs : List Char) : (capitalize cs).all p = cs.all p := by
  cases cs with
  | nil => rfl
  | cons c cs => simp [capitalize, toUpper_caseless hp]

@[simp] theorem all_flatten_words (cs : List Char) :
    (words cs).flatten.all p = (cs.filter (· != '_')).all p := by
  rw [flatten_words, List.all_map]
  congr 1
  funext c
  exact toLower_caseless hp c

@[simp] theorem all_joinWords (ws : List (List Char)) :
    (joinWords ws).all p = ws.flatten.all p := by
  cases ws with
  | nil => rfl
  | cons w ws => simp [joinWords, List.all_flatMap, all_capitalize hp]

@[simp] theorem all_toCamelCase (cs : List Char) :
    (toCamelCase cs).all p = (cs.filter (· != '_')).all p := by
  rw [toCamelCase_eq, all_joinWords hp, all_flatten_words hp]

end Caseless

/-! ### Converting twice -/

theorem underscore_notMem_iff {cs : List Char} : '_' ∉ cs ↔ cs.all (· != '_') := by
  simp only [List.all_eq_true, bne_iff_ne]
  exact ⟨fun h c hc => ne_of_mem_of_not_mem hc h, fun h hmem => h '_' hmem rfl⟩

theorem underscore_notMem_toCamelCase (cs : List Char) : '_' ∉ toCamelCase cs := by
  rw [underscore_notMem_iff, all_toCamelCase ne_underscore_of_isAlpha]
  simp

theorem underscore_notMem_toPascalCase (cs : List Char) : '_' ∉ toPascalCase cs := by
  rw [underscore_notMem_iff, toPascalCase_eq, all_capitalize ne_underscore_of_isAlpha,
    ← underscore_notMem_iff]
  exact underscore_notMem_toCamelCase cs

/-- Without underscores only the first letter changes. -/
theorem toCamelCase_cons {c : Char} {cs : List Char} (h : '_' ∉ c :: cs) :
    toCamelCase (c :: cs) = c.toLower :: cs := by
  have hne : c ≠ '_' := (List.ne_of_not_mem_cons h).symm
  have hfirst : words (c :: cs) = wordsFrom [c.toLower] cs := by simp [words, wordsFrom, hne]
  rw [toCamelCase_eq, hfirst,
    joinWords_wordsFrom (isWord_toLower hne) (List.not_mem_of_not_mem_cons h)]
  rfl

@[simp] theorem head?_toCamelCase (cs : List Char) :
    (toCamelCase cs).head? = (cs.find? (· != '_')).map Char.toLower := by
  have hflat : (toCamelCase cs).head? = (words cs).flatten.head? := by
    rw [toCamelCase_eq]
    cases hws : words cs with
    | nil => rfl
    | cons w ws =>
      have hw : IsWord w := isWord_of_mem_words (show w ∈ words cs by simp [hws])
      obtain ⟨c, w, rfl⟩ := List.exists_cons_of_ne_nil hw.ne_nil
      rfl
  rw [hflat, flatten_words, List.head?_map, List.head?_filter]

@[simp] theorem head?_capitalize (cs : List Char) :
    (capitalize cs).head? = cs.head?.map Char.toUpper := by
  cases cs <;> rfl

@[simp] theorem toCamelCase_toCamelCase (cs : List Char) :
    toCamelCase (toCamelCase cs) = toCamelCase cs := by
  have hhead := head?_toCamelCase cs
  have hfree := underscore_notMem_toCamelCase cs
  cases hcs : toCamelCase cs with
  | nil => rfl
  | cons c rest =>
    rw [hcs] at hhead hfree
    obtain ⟨d, -, hd⟩ := Option.map_eq_some_iff.mp hhead.symm
    rw [toCamelCase_cons hfree, ← hd, Char.toLower_toLower_eq_toLower]

@[simp] theorem toPascalCase_toPascalCase (cs : List Char) :
    toPascalCase (toPascalCase cs) = toPascalCase cs := by
  have hfree := underscore_notMem_toPascalCase cs
  have hhead : (toPascalCase cs).head? = (toCamelCase cs).head?.map Char.toUpper := by
    rw [toPascalCase_eq, head?_capitalize]
  rw [toPascalCase_eq (toPascalCase cs)]
  cases hcs : toPascalCase cs with
  | nil => rfl
  | cons c rest =>
    rw [hcs] at hhead hfree
    obtain ⟨d, -, hd⟩ := Option.map_eq_some_iff.mp hhead.symm
    rw [toCamelCase_cons hfree, capitalize, Char.toUpper_toLower_eq_toUpper, ← hd,
      Char.toUpper_toUpper_eq_toUpper]

theorem wordsFrom_append {w : List Char} (hw : w.all isSmall) (current cs : List Char) :
    wordsFrom current (w ++ cs) = wordsFrom (current ++ w) cs := by
  induction w generalizing current with
  | nil => simp
  | cons c w ih =>
    obtain ⟨hc, hw⟩ : isSmall c ∧ w.all isSmall := by simpa using hw
    rw [List.cons_append, wordsFrom_small hc, ih hw, List.append_assoc, List.singleton_append]

/-- Words between underscores are found again. -/
theorem words_intercalate {ws : List (List Char)} (hws : ∀ w ∈ ws, IsWord w) :
    words (['_'].intercalate ws) = ws := by
  induction ws with
  | nil => rfl
  | cons w ws ih =>
    have hw := hws w (by simp)
    cases ws with
    | nil =>
      have hsingle := wordsFrom_append hw.small [] []
      simpa [words, closed_of_ne_nil hw.ne_nil] using hsingle
    | cons v ws =>
      have htail := ih fun u hu => hws u (by simp [hu])
      rw [List.intercalate_cons_cons, List.append_assoc, words, wordsFrom_append hw.small,
        List.nil_append, List.singleton_append, wordsFrom_underscore, closed_of_ne_nil hw.ne_nil]
      exact congrArg (w :: ·) htail

@[simp] theorem toSnakeCase_toSnakeCase (cs : List Char) :
    toSnakeCase (toSnakeCase cs) = toSnakeCase cs := by
  have h : words (toSnakeCase cs) = words cs := words_intercalate fun _ => isWord_of_mem_words
  rw [toSnakeCase, h, toSnakeCase]

/-! ### Tests of the style of a name -/

theorem isCamelCase_eq (cs : List Char) :
    isCamelCase cs = (cs.head?.any Char.isLower && cs.all Char.isAlphanum) := by
  cases cs <;> rfl

theorem isPascalCase_eq (cs : List Char) :
    isPascalCase cs = (cs.head?.any Char.isUpper && cs.all Char.isAlphanum) := by
  cases cs <;> rfl

theorem isAlphanum_of_isAlpha (c : Char) (hc : c.isAlpha) : c.isAlphanum := by
  simp [Char.isAlphanum, hc]

theorem isCamelCase_toCamelCase (cs : List Char) :
    isCamelCase (toCamelCase cs) =
      ((cs.find? (· != '_')).any Char.isAlpha && (cs.filter (· != '_')).all Char.isAlphanum) := by
  rw [isCamelCase_eq, head?_toCamelCase, all_toCamelCase isAlphanum_of_isAlpha, Option.any_map]
  simp only [Char.isLower_toLower_eq_isAlpha]

theorem isPascalCase_toPascalCase (cs : List Char) :
    isPascalCase (toPascalCase cs) =
      ((cs.find? (· != '_')).any Char.isAlpha && (cs.filter (· != '_')).all Char.isAlphanum) := by
  rw [isPascalCase_eq, toPascalCase_eq, head?_capitalize, head?_toCamelCase,
    all_capitalize isAlphanum_of_isAlpha, all_toCamelCase isAlphanum_of_isAlpha, Option.any_map,
    Option.any_map]
  simp only [Char.isUpper_toUpper_eq_isAlpha, Char.isAlpha_toLower_eq_isAlpha]

/-- What a name in snake case is made of. -/
def isSnakePart (c : Char) : Bool := c.isLower || c.isDigit || c == '_'

theorem isSnakeCase_eq (cs : List Char) :
    isSnakeCase cs = (cs.head?.all (· != '_') && cs.all isSnakePart) := by
  cases cs <;> rfl

theorem all_intercalate (ws : List (List Char)) :
    (['_'].intercalate ws).all isSnakePart = ws.flatten.all isSnakePart := by
  induction ws with
  | nil => rfl
  | cons w ws ih =>
    cases ws with
    | nil => simp
    | cons v ws =>
      rw [List.intercalate_cons_cons, List.all_append, List.all_append, ih]
      simp [isSnakePart]

theorem head?_toSnakeCase (cs : List Char) : (toSnakeCase cs).head?.all (· != '_') := by
  rw [toSnakeCase]
  cases hws : words cs with
  | nil => rfl
  | cons w ws =>
    have hw : IsWord w := isWord_of_mem_words (show w ∈ words cs by simp [hws])
    obtain ⟨c, w, rfl⟩ := List.exists_cons_of_ne_nil hw.ne_nil
    obtain ⟨hc, -⟩ : isSmall c ∧ w.all isSmall := by simpa using hw.small
    cases ws with
    | nil => simpa using (isSmall_iff.mp hc).1
    | cons v ws =>
      rw [List.intercalate_cons_cons]
      simpa using (isSmall_iff.mp hc).1

theorem isSnakePart_toLower {c : Char} (hc : c ≠ '_') : isSnakePart c.toLower = c.isAlphanum := by
  have hne : (c.toLower == '_') = false := beq_false_of_ne (toLower_ne_underscore hc)
  rw [isSnakePart, hne, Bool.or_false, Char.isLower_toLower_eq_isAlpha,
    ← toLower_caseless isAlphanum_of_isAlpha c, Char.isAlphanum, Char.isAlpha_toLower_eq_isAlpha]

@[simp] theorem isSnakeCase_toSnakeCase (cs : List Char) :
    isSnakeCase (toSnakeCase cs) = (cs.filter (· != '_')).all Char.isAlphanum := by
  rw [isSnakeCase_eq, head?_toSnakeCase, toSnakeCase, all_intercalate, flatten_words, List.all_map,
    Bool.true_and, List.all_filter, List.all_filter]
  congr 1
  funext c
  by_cases hc : c = '_'
  · simp [hc]
  · simp [isSnakePart_toLower hc]

/-! ### Basic Latin names -/

theorem isAlpha_iff {c : Char} :
    c.isAlpha ↔ (65 ≤ c.toNat ∧ c.toNat ≤ 90) ∨ (97 ≤ c.toNat ∧ c.toNat ≤ 122) := by
  simp [Char.isAlpha, Char.isUpper, Char.isLower, UInt32.le_iff_toNat_le, ← Char.toNat_val]

theorem isDigit_iff {c : Char} : c.isDigit ↔ 48 ≤ c.toNat ∧ c.toNat ≤ 57 := by
  simp [Char.isDigit, UInt32.le_iff_toNat_le, ← Char.toNat_val]

theorem inRanges_cons {n first last : Nat} {rest : List (Nat × Nat)} :
    inRanges n ((first, last) :: rest) ↔ first ≤ n ∧ (n ≤ last ∨ inRanges n rest) := by
  rw [inRanges]
  grind

theorem inRanges_of_lt {n first last : Nat} {rest : List (Nat × Nat)} (h : n < first) :
    inRanges n ((first, last) :: rest) = false := by
  rw [inRanges, if_pos h]

theorem isAlphabetic_iff_of_lt {c : Char} (hc : c.toNat < 128) : isAlphabetic c ↔ c.isAlpha := by
  rw [isAlpha_iff, isAlphabetic, alphabeticRanges, inRanges_cons, inRanges_cons,
    inRanges_of_lt (by omega)]
  simp only [Bool.false_eq_true, or_false]
  omega

theorem isNumeric_iff_of_lt {c : Char} (hc : c.toNat < 128) : isNumeric c ↔ c.isDigit := by
  rw [isDigit_iff, isNumeric, numericRanges, inRanges_cons, inRanges_of_lt (by omega)]
  simp only [Bool.false_eq_true, or_false]

theorem lt_of_isAlphanum {c : Char} (hc : c.isAlphanum) : c.toNat < 128 := by
  rw [Char.isAlphanum, Bool.or_eq_true, isAlpha_iff, isDigit_iff] at hc
  omega

theorem isAlphanum_iff_lt {c : Char} (hpart : isWordPart c) (hne : c ≠ '_') :
    c.isAlphanum ↔ c.toNat < 128 := by
  refine ⟨lt_of_isAlphanum, fun hc => ?_⟩
  have hor : isAlphabetic c ∨ isNumeric c := by
    simpa [isWordPart, isAlphanumeric, hne] using hpart
  rwa [isAlphabetic_iff_of_lt hc, isNumeric_iff_of_lt hc, ← Bool.or_eq_true] at hor

/-- Of a name of letters, digits and underscores, the underscores do not matter. -/
theorem all_isAlphanum_iff {name : List Char} (hname : ∀ c ∈ name, isWordPart c) :
    (name.filter (· != '_')).all Char.isAlphanum ↔ ∀ c ∈ name, c.toNat < 128 := by
  simp only [List.all_eq_true, List.mem_filter, bne_iff_ne, and_imp]
  refine forall₂_congr fun c hc => ?_
  by_cases hne : c = '_'
  · simp [hne]
  · rw [isAlphanum_iff_lt (hname c hc) hne]
    simp [hne]

/-- A name of letters, digits and underscores is converted to one that passes the test of the
style just if it is a basic Latin one, in camel and Pascal case one that begins with a letter.
Converting any name once more changes nothing. -/
theorem accepts_converted (name : List Char) :
    ((∀ c ∈ name, isWordPart c) →
      (isCamelCase (toCamelCase name) ↔
        (∀ c ∈ name, c.toNat < 128) ∧ ∃ c, name.find? (· != '_') = some c ∧ isAlphabetic c) ∧
      (isPascalCase (toPascalCase name) ↔
        (∀ c ∈ name, c.toNat < 128) ∧ ∃ c, name.find? (· != '_') = some c ∧ isAlphabetic c) ∧
      (isSnakeCase (toSnakeCase name) ↔ ∀ c ∈ name, c.toNat < 128)) ∧
    toCamelCase (toCamelCase name) = toCamelCase name ∧
    toPascalCase (toPascalCase name) = toPascalCase name ∧
    toSnakeCase (toSnakeCase name) = toSnakeCase name := by
  refine ⟨fun hname => ?_, toCamelCase_toCamelCase name, toPascalCase_toPascalCase name,
    toSnakeCase_toSnakeCase name⟩
  have hlatin := all_isAlphanum_iff hname
  have hfirst : (name.find? (· != '_')).any Char.isAlpha ∧ (∀ c ∈ name, c.toNat < 128) ↔
      (∀ c ∈ name, c.toNat < 128) ∧ ∃ c, name.find? (· != '_') = some c ∧ isAlphabetic c := by
    rw [and_comm, Option.any_eq_true]
    refine and_congr_right fun hlt => exists_congr fun c => and_congr_right fun hc => ?_
    exact (isAlphabetic_iff_of_lt (hlt c (List.mem_of_find?_eq_some hc))).symm
  rw [isCamelCase_toCamelCase, isPascalCase_toPascalCase, isSnakeCase_toSnakeCase,
    Bool.and_eq_true, hlatin]
  exact ⟨hfirst, hfirst, Iff.rfl⟩

theorem accepts_converted_portAndUmlaut :
    (∀ c ∈ "__HTTP_Port2".toList, isWordPart c) ∧ isCamelCase (toCamelCase "__HTTP_Port2".toList) ∧
      (∀ c ∈ "größe".toList, isWordPart c) ∧ ¬ isSnakeCase (toSnakeCase "größe".toList) := by
  have hport : ∀ c ∈ "__HTTP_Port2".toList, isWordPart c := List.all_eq_true.mp (by decide +kernel)
  have hlatin : ∀ c ∈ "__HTTP_Port2".toList, c.toNat < 128 := by simp
  have humlaut : ∀ c ∈ "größe".toList, isWordPart c := List.all_eq_true.mp (by decide +kernel)
  have hcamel := ((accepts_converted "__HTTP_Port2".toList).1 hport).1
  have hsnake := ((accepts_converted "größe".toList).1 humlaut).2.2
  refine ⟨hport, hcamel.mpr ⟨hlatin, 'H', by decide, by decide +kernel⟩, humlaut, fun h => ?_⟩
  exact absurd (hsnake.mp h 'ö' (by decide)) (by decide)

end Naming
end LetScript
