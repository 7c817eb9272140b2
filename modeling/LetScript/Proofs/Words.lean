import Mathlib
import LetScript.Style.Naming

/-! The words of a name. A word is made of small letters only, so the capital letter that comes
next is never compared with another capital. Main statement: a name is cut at its underscores and
before each capital letter, and this is cutting at changes of case for just those names in which
no two capital letters stand side by side. -/
namespace LetScript
namespace Naming

/-! ### Small letters -/

/-- A test that all letters pass does not look at their case. -/
theorem toLower_caseless {p : Char → Bool} (hp : ∀ c, c.isAlpha → p c) (c : Char) :
    p c.toLower = p c := by
  by_cases hc : c.isAlpha
  · rw [hp c hc, hp c.toLower (by simpa using hc)]
  · have hup : ¬ c.isUpper := fun h => hc (by simp [Char.isAlpha, h])
    rw [Char.toLower_eq_of_not_isUpper hup]

theorem ne_underscore_of_isAlpha (c : Char) (hc : c.isAlpha) : c != '_' := by
  rw [bne_iff_ne]
  rintro rfl
  exact absurd hc (by decide)

theorem ne_underscore_of_isUpper {c : Char} (hc : c.isUpper) : c ≠ '_' :=
  bne_iff_ne.mp (ne_underscore_of_isAlpha c (by simp [Char.isAlpha, hc]))

/-- What a word can hold: all but underscores and capital letters. -/
def isSmall (c : Char) : Bool := c != '_' && !c.isUpper

theorem isSmall_iff {c : Char} : isSmall c ↔ c ≠ '_' ∧ c.isUpper = false := by
  simp [isSmall]

theorem toLower_ne_underscore {c : Char} (hc : c ≠ '_') : c.toLower ≠ '_' := by
  rwa [← bne_iff_ne, toLower_caseless ne_underscore_of_isAlpha, bne_iff_ne]

theorem isSmall_toLower {c : Char} (hc : c ≠ '_') : isSmall c.toLower :=
  isSmall_iff.mpr ⟨toLower_ne_underscore hc, Char.isUpper_toLower_eq_false c⟩

theorem toLower_of_isSmall {c : Char} (hc : isSmall c) : c.toLower = c :=
  Char.toLower_eq_of_not_isUpper (by simp [(isSmall_iff.mp hc).2])

/-! ### Cutting a name -/

/-- The word so far as a list of words. -/
def closed (current : List Char) : List (List Char) := if current = [] then [] else [current]

@[simp] theorem closed_nil : closed [] = [] := rfl

@[simp] theorem closed_of_ne_nil {current : List Char} (h : current ≠ []) :
    closed current = [current] :=
  if_neg h

@[simp] theorem flatten_closed (current : List Char) : (closed current).flatten = current := by
  by_cases h : current = [] <;> simp [closed, h]

@[simp] theorem wordsFrom_nil (current : List Char) : wordsFrom current [] = closed current := rfl

@[simp] theorem wordsFrom_underscore (current cs : List Char) :
    wordsFrom current ('_' :: cs) = closed current ++ wordsFrom [] cs := by
  by_cases h : current = [] <;> simp [wordsFrom, closed, h]

/-- The letters of a word are small, so each capital letter is found to differ from the last. -/
@[simp] theorem wordsFrom_upper {current cs : List Char} {c : Char} (hcur : current.all isSmall)
    (hc : c.isUpper) :
    wordsFrom current (c :: cs) = closed current ++ wordsFrom [c.toLower] cs := by
  have hne : c ≠ '_' := ne_underscore_of_isUpper hc
  rcases List.eq_nil_or_concat' current with rfl | ⟨front, p, rfl⟩
  · simp [wordsFrom, hne]
  · have hp : p.isUpper = false := by
      simp only [List.all_append, List.all_cons, List.all_nil, Bool.and_true, Bool.and_eq_true,
        isSmall_iff] at hcur
      exact hcur.2.2
    rw [wordsFrom, if_neg hne, if_pos ⟨hc, by simp [hp]⟩, closed_of_ne_nil (by simp)]
    rfl

@[simp] theorem wordsFrom_small {current cs : List Char} {c : Char} (hc : isSmall c) :
    wordsFrom current (c :: cs) = wordsFrom (current ++ [c]) cs := by
  obtain ⟨hne, hup⟩ := isSmall_iff.mp hc
  simp [wordsFrom, hne, hup, toLower_of_isSmall hc]

/-- A character of a name is an underscore, a capital letter, or small. -/
theorem underscore_or_upper_or_small (c : Char) : c = '_' ∨ c.isUpper ∨ isSmall c := by
  rw [isSmall_iff]
  cases c.isUpper <;> simp [Classical.em]

/-! ### Pieces -/

/-- The pieces of a name in small letters, cut at underscores and between those neighbours for
which `cuts` holds. -/
def pieces (cuts : Char → Char → Bool) (cs : List Char) : List (List Char) :=
  (cs.splitOn '_').flatMap fun part =>
    (part.splitBy fun c d => !cuts c d).map fun piece => piece.map Char.toLower

theorem splitBy_cons_cons {α : Type*} (r : α → α → Bool) (a b : α) (l : List α) :
    (a :: b :: l).splitBy r =
      if r a b then ((b :: l).splitBy r).modifyHead (a :: ·) else [a] :: (b :: l).splitBy r := by
  split
  · rename_i hr
    obtain ⟨g, gs, hg⟩ := List.exists_cons_of_ne_nil (List.splitBy_ne_nil.mpr (List.cons_ne_nil b l))
    obtain ⟨hflat, hnil, hchain, hbreaks⟩ := List.splitBy_eq_iff.mp hg
    rw [hg, List.modifyHead_cons, List.splitBy_eq_iff]
    obtain ⟨d, g, rfl⟩ := List.exists_cons_of_ne_nil (l := g) (by rintro rfl; simp at hnil)
    obtain rfl : b = d := by simpa using congrArg List.head? hflat
    refine ⟨by simp [hflat], by simpa using hnil, ?_, ?_⟩
    · intro m hm
      rcases List.mem_cons.mp hm with rfl | hm
      · exact List.isChain_cons_cons.mpr ⟨hr, hchain _ (by simp)⟩
      · exact hchain m (by simp [hm])
    · cases gs with
      | nil => simp
      | cons f gs =>
        rw [List.isChain_cons_cons] at hbreaks ⊢
        simpa using hbreaks
  · rename_i hr
    exact List.splitBy_append_cons (l := [a]) l (by simpa using hr)

variable {cuts : Char → Char → Bool}

@[simp] theorem pieces_nil : pieces cuts [] = [] := rfl

@[simp] theorem pieces_underscore (cs : List Char) : pieces cuts ('_' :: cs) = pieces cuts cs := by
  simp [pieces, List.splitOn_cons_eq_if_modifyHead]

/-- Whether a character stands in one piece with the first of what follows. -/
def joins (cuts : Char → Char → Bool) (c : Char) (cs : List Char) : Bool :=
  cs.head?.any fun d => d != '_' && !cuts c d

@[simp] theorem pieces_cons {c : Char} (hc : c ≠ '_') (cs : List Char) :
    pieces cuts (c :: cs) =
      if joins cuts c cs then (pieces cuts cs).modifyHead (c.toLower :: ·)
      else [c.toLower] :: pieces cuts cs := by
  have hsingle : [c].splitBy (fun c d => !cuts c d) = [[c]] := rfl
  cases cs with
  | nil => simp [pieces, joins, List.splitOn_cons_eq_if_modifyHead, hc, hsingle]
  | cons d cs =>
    by_cases hd : d = '_'
    · simp [pieces, joins, List.splitOn_cons_eq_if_modifyHead, hc, hd, hsingle]
    · obtain ⟨part, parts, hparts⟩ := List.exists_cons_of_ne_nil (List.splitOn_ne_nil '_' cs)
      obtain ⟨piece, more, hpiece⟩ := List.exists_cons_of_ne_nil
        (List.splitBy_ne_nil (r := fun c d => !cuts c d).mpr (List.cons_ne_nil d part))
      by_cases hcut : cuts c d <;>
        simp [pieces, joins, List.splitOn_cons_eq_if_modifyHead, hc, hd, hparts, hcut, hpiece,
          splitBy_cons_cons]

/-! ### Words are pieces -/

def beforeCapital (_ d : Char) : Bool := d.isUpper

def atCaseChange (c d : Char) : Bool := d.isUpper && !c.isUpper

/-- The word so far and the first piece of the rest are one word if the rest begins small. -/
theorem wordsFrom_eq {current : List Char} (hcur : current.all isSmall) (cs : List Char) :
    wordsFrom current cs =
      if cs.head?.any isSmall then (pieces beforeCapital cs).modifyHead (current ++ ·)
      else closed current ++ pieces beforeCapital cs := by
  induction cs generalizing current with
  | nil => simp
  | cons c cs ih =>
    have hjoins : joins beforeCapital c cs = cs.head?.any isSmall := rfl
    rcases underscore_or_upper_or_small c with rfl | hc | hc
    · have hstart : (pieces beforeCapital cs).modifyHead ([] ++ ·) = pieces beforeCapital cs :=
        congrFun List.modifyHead_id _
      have hrest : wordsFrom [] cs = pieces beforeCapital cs := by
        rw [ih rfl, hstart, closed_nil, List.nil_append, ite_self]
      rw [wordsFrom_underscore, hrest, pieces_underscore]
      rfl
    · have hne := ne_underscore_of_isUpper hc
      have hbig : isSmall c = false := by simp [isSmall, hc]
      rw [wordsFrom_upper hcur hc, ih (by simp [isSmall_toLower hne]), pieces_cons hne, hjoins]
      simp [hbig]
    · obtain ⟨hne, -⟩ := isSmall_iff.mp hc
      have hgrown : (current ++ [c]).all isSmall := by simpa [hc] using hcur
      rw [wordsFrom_small hc, ih hgrown, pieces_cons hne, hjoins, toLower_of_isSmall hc]
      by_cases hnext : cs.head?.any isSmall
      · simp [hnext, hc, List.modifyHead_modifyHead, Function.comp_def]
      · simp [hnext, hc]

theorem words_eq_pieces (cs : List Char) : words cs = pieces beforeCapital cs := by
  have h := wordsFrom_underscore [] cs
  rw [wordsFrom_eq rfl, pieces_underscore] at h
  exact h.symm

/-! ### Finer cuts make more pieces -/

theorem length_pieces_cons {c : Char} (hc : c ≠ '_') (cs : List Char) :
    (pieces cuts (c :: cs)).length =
      (pieces cuts cs).length + if joins cuts c cs then 0 else 1 := by
  rw [pieces_cons hc]
  split <;> simp

/-- Whether no cut between two neighbours is left out. Next to an underscore it makes no
difference. -/
def KeepsCut (cuts fewer : Char → Char → Bool) (c d : Char) : Prop :=
  c ≠ '_' → d ≠ '_' → cuts c d → fewer c d

section Finer

variable {fewer : Char → Char → Bool} (h : ∀ c d, fewer c d → cuts c d)

include h

theorem joins_of_joins {c : Char} {cs : List Char} (hj : joins cuts c cs) : joins fewer c cs := by
  simp only [joins, Option.any_eq_true, Bool.and_eq_true, Bool.not_eq_true'] at hj ⊢
  obtain ⟨d, hd, hne, hcut⟩ := hj
  have hfew : fewer c d = false := Bool.eq_false_iff.mpr fun hf => by simp [h c d hf] at hcut
  exact ⟨d, hd, hne, hfew⟩

theorem joins_eq_iff {c : Char} (hc : c ≠ '_') (cs : List Char) :
    joins cuts c cs = joins fewer c cs ↔ ∀ d ∈ cs.head?, KeepsCut cuts fewer c d := by
  cases cs with
  | nil => simp [joins]
  | cons d cs =>
    have hcd := h c d
    simp only [joins, KeepsCut, List.head?_cons, Option.any_some, Option.mem_some_iff]
    grind

theorem length_pieces_le (cs : List Char) :
    (pieces fewer cs).length ≤ (pieces cuts cs).length := by
  induction cs with
  | nil => simp
  | cons c cs ih =>
    by_cases hc : c = '_'
    · simpa [hc] using ih
    · have hstep : joins cuts c cs → joins fewer c cs := joins_of_joins h
      rw [length_pieces_cons hc, length_pieces_cons hc]
      grind

theorem isChain_of_length_pieces {cs : List Char}
    (hlen : (pieces cuts cs).length = (pieces fewer cs).length) :
    cs.IsChain (KeepsCut cuts fewer) := by
  induction cs with
  | nil => exact List.isChain_nil
  | cons c cs ih =>
    rw [List.isChain_cons]
    by_cases hc : c = '_'
    · exact ⟨fun d _ hne => absurd hc hne, ih (by simpa [hc] using hlen)⟩
    · -- The tail has no fewer pieces and the first character adds no fewer, so both are equal.
      have htail := length_pieces_le h cs
      have hhead : joins cuts c cs → joins fewer c cs := joins_of_joins h
      rw [length_pieces_cons hc, length_pieces_cons hc] at hlen
      have hjoins : joins cuts c cs = joins fewer c cs := by grind
      refine ⟨(joins_eq_iff h hc cs).mp hjoins, ih ?_⟩
      rw [hjoins] at hlen
      exact Nat.add_right_cancel hlen

theorem pieces_eq_of_isChain {cs : List Char} (hchain : cs.IsChain (KeepsCut cuts fewer)) :
    pieces cuts cs = pieces fewer cs := by
  induction cs with
  | nil => rfl
  | cons c cs ih =>
    obtain ⟨hhead, htail⟩ := List.isChain_cons.mp hchain
    by_cases hc : c = '_'
    · rw [hc, pieces_underscore, pieces_underscore, ih htail]
    · rw [pieces_cons hc, pieces_cons hc, (joins_eq_iff h hc cs).mpr hhead, ih htail]

theorem pieces_eq_iff (cs : List Char) :
    pieces cuts cs = pieces fewer cs ↔ cs.IsChain (KeepsCut cuts fewer) :=
  ⟨fun heq => isChain_of_length_pieces h (congrArg List.length heq), pieces_eq_of_isChain h⟩

end Finer

/-! ### Main statement -/

theorem keepsCut_atCaseChange :
    KeepsCut beforeCapital atCaseChange = fun c d => ¬ (c.isUpper ∧ d.isUpper) := by
  funext c d
  apply propext
  constructor
  · rintro h ⟨hc, hd⟩
    have hcut := h (ne_underscore_of_isUpper hc) (ne_underscore_of_isUpper hd) hd
    simp [atCaseChange, hc] at hcut
  · intro h _ _ hd
    have hc : c.isUpper = false := Bool.eq_false_iff.mpr fun hc => h ⟨hc, hd⟩
    simp [atCaseChange, hc, show d.isUpper from hd]

/-- A name is cut at underscores and before each capital letter. These are the cuts at changes of
case just if no two capital letters are neighbours. -/
theorem words_eq_caseChange_iff (name : List Char) :
    words name = pieces beforeCapital name ∧
      (words name = pieces atCaseChange name ↔
        name.IsChain fun c d => ¬ (c.isUpper ∧ d.isUpper)) := by
  have hfewer : ∀ c d, atCaseChange c d → beforeCapital c d := by
    intro c d hcd
    simp only [atCaseChange, Bool.and_eq_true] at hcd
    exact hcd.1
  refine ⟨words_eq_pieces name, ?_⟩
  rw [words_eq_pieces, pieces_eq_iff hfewer, keepsCut_atCaseChange]

/-- Neighbouring capital letters go to different words. -/
theorem words_maxSize :
    words "MAX_SIZE".toList = ["m", "a", "x", "s", "i", "z", "e"].map String.toList ∧
      pieces atCaseChange "MAX_SIZE".toList = ["max", "size"].map String.toList := by
  decide

end Naming
end LetScript
