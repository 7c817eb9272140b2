import LetScript.Proofs.Distance
import Mathlib.Data.String.Basic

/-! Suggestions for misspelled names. One pass over the candidates keeps the best one so far.
Main statement: it ends with the earliest of the nearest candidates that are near enough, and for
names of basic Latin characters the candidates need not be chosen by their lengths first. -/
namespace LetScript

/-- The number of edits between two names. -/
def distance (name candidate : String) : Nat := levenshtein name.toList candidate.toList

/-- Whether a candidate is at most `m` edits away and differs in length by at most `m` bytes. -/
def Admissible (m : Nat) (name candidate : String) : Prop :=
  distance name candidate ≤ m ∧ name.utf8ByteSize ≤ candidate.utf8ByteSize + m ∧
    candidate.utf8ByteSize ≤ name.utf8ByteSize + m

/-- The earliest candidate of least distance among those that `admits` holds of. -/
def EarliestNearest (admits : String → Prop) (name : String) (candidates : List String)
    (c : String) : Prop :=
  admits c ∧ ∃ before after, candidates = before ++ c :: after ∧
    (∀ d ∈ before, admits d → distance name c < distance name d) ∧
    ∀ d ∈ after, admits d → distance name c ≤ distance name d

/-! ### Any choice of candidates -/

/-- Take a candidate that is not skipped if it is near enough and nearer than the best one so
far. -/
def nearerWhere (keeps : String → Bool) (name : String) (best : Option (String × Nat))
    (candidate : String) : Option (String × Nat) :=
  if keeps candidate then
    let d := editDistance name.toList candidate.toList
    if d ≤ tolerance name.utf8ByteSize ∧ best.all (fun b => d < b.2) then some (candidate, d)
    else best
  else best

/-- The suggestion among the candidates that are not skipped. -/
def suggestWhere? (keeps : String → Bool) (name : String) (candidates : List String) :
    Option String :=
  (candidates.foldl (nearerWhere keeps name) none).map fun b => "did you mean `" ++ b.1 ++ "`?"

/-- Whether two names are of similar length. -/
def similarLength (name candidate : String) : Bool :=
  lengthGap name candidate ≤ tolerance name.utf8ByteSize

theorem nearer_eq (name : String) : nearer name = nearerWhere (similarLength name) name := by
  funext best candidate
  by_cases hgap : lengthGap name candidate ≤ tolerance name.utf8ByteSize
  · simp [nearer, nearerWhere, similarLength, hgap]
  · simp [nearer, nearerWhere, similarLength, hgap]

theorem suggest?_eq (name : String) (candidates : List String) :
    suggest? name candidates = suggestWhere? (similarLength name) name candidates := by
  rw [suggest?, nearest?, nearer_eq, Option.map_map]
  rfl

/-! ### One pass -/

/-- What a run takes into account: candidates that are kept and near enough. -/
def Eligible (keeps : String → Bool) (name c : String) : Prop :=
  distance name c ≤ tolerance name.utf8ByteSize ∧ keeps c

variable {keeps : String → Bool} {name : String}

theorem nearerWhere_of_not_eligible {c : String} (h : ¬ Eligible keeps name c)
    (best : Option (String × Nat)) : nearerWhere keeps name best c = best := by
  rw [nearerWhere, editDistance_eq_levenshtein]
  split
  · rename_i hkeeps
    have hfar : ¬ levenshtein name.toList c.toList ≤ tolerance name.utf8ByteSize :=
      fun hnear => h ⟨hnear, hkeeps⟩
    exact if_neg fun hboth => hfar hboth.1
  · rfl

theorem nearerWhere_of_eligible {c : String} (h : Eligible keeps name c)
    (best : Option (String × Nat)) :
    nearerWhere keeps name best c =
      if best.all (fun b => distance name c < b.2) then some (c, distance name c) else best := by
  have hnear : levenshtein name.toList c.toList ≤ tolerance name.utf8ByteSize := h.1
  rw [nearerWhere, if_pos h.2, editDistance_eq_levenshtein]
  simp only [hnear, true_and]
  rfl

/-- What the best one so far says of the candidates seen. -/
def BestOf (admits : String → Prop) (name : String) (seen : List String) :
    Option (String × Nat) → Prop
  | none => ∀ c ∈ seen, ¬ admits c
  | some (c, d) => d = distance name c ∧ EarliestNearest admits name seen c

variable {admits : String → Prop} {seen : List String}

theorem EarliestNearest.concat {b c : String} (h : EarliestNearest admits name seen b)
    (hc : admits c → distance name b ≤ distance name c) :
    EarliestNearest admits name (seen ++ [c]) b := by
  obtain ⟨hb, before, after, rfl, hbefore, hafter⟩ := h
  refine ⟨hb, before, after ++ [c], by simp, hbefore, fun d hd => ?_⟩
  rcases List.mem_append.mp hd with hd | hd
  · exact hafter d hd
  · obtain rfl := List.mem_singleton.mp hd
    exact hc

theorem earliestNearest_concat_self {c : String} (hc : admits c)
    (hseen : ∀ d ∈ seen, admits d → distance name c < distance name d) :
    EarliestNearest admits name (seen ++ [c]) c :=
  ⟨hc, seen, [], rfl, hseen, by simp⟩

/-- Whatever is nearer than the best one so far is nearer than all candidates before. -/
theorem BestOf.lt_of_all {best : Option (String × Nat)} (h : BestOf admits name seen best) {n : Nat}
    (hn : best.all fun b => n < b.2) : ∀ d ∈ seen, admits d → n < distance name d := by
  intro d hd hadmits
  cases best with
  | none => exact absurd hadmits (h d hd)
  | some b =>
    obtain ⟨hdist, -, before, after, rfl, hbefore, hafter⟩ := h
    have hlt : n < distance name b.1 := by simpa [← hdist] using hn
    rcases List.mem_append.mp hd with hd | hd
    · exact hlt.trans (hbefore d hd hadmits)
    · rcases List.mem_cons.mp hd with rfl | hd
      · exact hlt
      · exact hlt.trans_le (hafter d hd hadmits)

/-- One step of the pass. -/
theorem BestOf.step {best : Option (String × Nat)}
    (h : BestOf (Eligible keeps name) name seen best) (c : String) :
    BestOf (Eligible keeps name) name (seen ++ [c]) (nearerWhere keeps name best c) := by
  by_cases hc : Eligible keeps name c
  · rw [nearerWhere_of_eligible hc]
    split
    · rename_i hnearer
      exact ⟨rfl, earliestNearest_concat_self hc (h.lt_of_all hnearer)⟩
    · rename_i hfar
      cases best with
      | none => simp at hfar
      | some b =>
        refine ⟨h.1, h.2.concat fun _ => ?_⟩
        rw [← h.1]
        simpa using hfar
  · rw [nearerWhere_of_not_eligible hc]
    cases best with
    | none =>
      intro d hd
      rcases List.mem_append.mp hd with hd | hd
      · exact h d hd
      · obtain rfl := List.mem_singleton.mp hd
        exact hc
    | some b => exact ⟨h.1, h.2.concat fun hadmits => absurd hadmits hc⟩

/-- A whole pass. -/
theorem BestOf.foldl {best : Option (String × Nat)}
    (h : BestOf (Eligible keeps name) name seen best) (candidates : List String) :
    BestOf (Eligible keeps name) name (seen ++ candidates)
      (candidates.foldl (nearerWhere keeps name) best) := by
  induction candidates generalizing seen best with
  | nil => simpa using h
  | cons c candidates ih =>
    have hrest := ih (h.step c)
    rwa [List.append_assoc, List.singleton_append] at hrest

theorem EarliestNearest.unique {candidates : List String} {b c : String}
    (hb : EarliestNearest admits name candidates b) (hc : EarliestNearest admits name candidates c) :
    b = c := by
  obtain ⟨hadmitsB, before, after, rfl, hbefore, hafter⟩ := hb
  obtain ⟨hadmitsC, before', after', heq, hbefore', hafter'⟩ := hc
  rcases List.append_eq_append_iff.mp heq with ⟨gap, rfl, hgap⟩ | ⟨gap, rfl, hgap⟩
  · cases gap with
    | nil => exact (List.cons.inj hgap).1
    | cons e gap =>
      obtain ⟨rfl, rfl⟩ := List.cons.inj hgap
      have hlt := hbefore' b (by simp) hadmitsB
      have hle := hafter c (by simp) hadmitsC
      omega
  · cases gap with
    | nil => exact (List.cons.inj hgap).1.symm
    | cons e gap =>
      obtain ⟨rfl, rfl⟩ := List.cons.inj hgap
      have hlt := hbefore c (by simp) hadmitsC
      have hle := hafter' b (by simp) hadmitsB
      omega

/-! ### What is suggested -/

theorem bestOf_foldl (keeps : String → Bool) (name : String) (candidates : List String) :
    BestOf (Eligible keeps name) name candidates
      (candidates.foldl (nearerWhere keeps name) none) := by
  have hstart : BestOf (Eligible keeps name) name [] none := by simp [BestOf]
  simpa using hstart.foldl candidates

theorem suggestWhere?_eq_none_iff (candidates : List String) :
    suggestWhere? keeps name candidates = none ↔ ∀ c ∈ candidates, ¬ Eligible keeps name c := by
  have hbest := bestOf_foldl keeps name candidates
  rw [suggestWhere?, Option.map_eq_none_iff]
  cases hfold : candidates.foldl (nearerWhere keeps name) none with
  | none =>
    rw [hfold] at hbest
    exact ⟨fun _ => hbest, fun _ => rfl⟩
  | some b =>
    rw [hfold] at hbest
    obtain ⟨-, hadmits, before, after, rfl, -, -⟩ := hbest
    simp only [reduceCtorEq, false_iff]
    exact fun hnone => hnone b.1 (by simp) hadmits

theorem suggestWhere?_eq_some_iff (candidates : List String) (help : String) :
    suggestWhere? keeps name candidates = some help ↔
      ∃ c, EarliestNearest (Eligible keeps name) name candidates c ∧
        help = "did you mean `" ++ c ++ "`?" := by
  have hbest := bestOf_foldl keeps name candidates
  rw [suggestWhere?, Option.map_eq_some_iff]
  constructor
  · rintro ⟨b, hfold, rfl⟩
    rw [hfold] at hbest
    exact ⟨b.1, hbest.2, rfl⟩
  · rintro ⟨c, hc, rfl⟩
    cases hfold : candidates.foldl (nearerWhere keeps name) none with
    | none =>
      rw [hfold] at hbest
      obtain ⟨hadmits, before, after, rfl, -, -⟩ := hc
      exact absurd hadmits (hbest c (by simp))
    | some b =>
      rw [hfold] at hbest
      exact ⟨b, rfl, by rw [hbest.2.unique hc]⟩

/-! ### Names of basic Latin characters -/

/-- Whether all characters of a name are written as one byte. -/
def IsLatin (s : String) : Prop := ∀ c ∈ s.toList, c.toNat < 128

theorem utf8Len_of_latin {cs : List Char} (h : ∀ c ∈ cs, c.toNat < 128) :
    String.utf8Len cs = cs.length := by
  induction cs with
  | nil => rfl
  | cons c cs ih =>
    have hc : c.utf8Size = 1 :=
      Char.utf8Size_eq_one_iff.mpr (UInt32.le_iff_toNat_le.mpr (Nat.le_of_lt_succ (h c (by simp))))
    rw [String.utf8Len_cons, ih fun d hd => h d (by simp [hd]), hc, List.length_cons]

theorem IsLatin.utf8ByteSize_eq {s : String} (h : IsLatin s) :
    s.utf8ByteSize = s.toList.length := by
  rw [← String.utf8Len_toList, utf8Len_of_latin h]

theorem lengthGap_le_distance {a b : String} (ha : IsLatin a) (hb : IsLatin b) :
    lengthGap a b ≤ distance a b := by
  have hlength := length_le_levenshtein a.toList b.toList
  rw [lengthGap, ha.utf8ByteSize_eq, hb.utf8ByteSize_eq, distance]
  omega

/-- Runs that take the same candidates into account suggest the same. -/
theorem suggestWhere?_congr {keeps' : String → Bool} {candidates : List String}
    (h : ∀ c ∈ candidates, Eligible keeps name c ↔ Eligible keeps' name c) :
    suggestWhere? keeps name candidates = suggestWhere? keeps' name candidates := by
  have hstep : ∀ best, ∀ c ∈ candidates,
      nearerWhere keeps name best c = nearerWhere keeps' name best c := by
    intro best c hc
    by_cases helig : Eligible keeps name c
    · rw [nearerWhere_of_eligible helig, nearerWhere_of_eligible ((h c hc).mp helig)]
    · rw [nearerWhere_of_not_eligible helig,
        nearerWhere_of_not_eligible fun h' => helig ((h c hc).mpr h')]
  rw [suggestWhere?, suggestWhere?, List.foldl_ext _ _ none hstep]

theorem suggestWhere?_of_latin {candidates : List String} (hname : IsLatin name)
    (hcandidates : ∀ c ∈ candidates, IsLatin c) :
    suggestWhere? (similarLength name) name candidates =
      suggestWhere? (fun _ => true) name candidates := by
  refine suggestWhere?_congr fun c hc => and_congr_right fun hnear => ?_
  have hgap := lengthGap_le_distance hname (hcandidates c hc)
  simp [similarLength, hgap.trans hnear]

/-! ### Main statement -/

theorem eligible_similarLength (name : String) :
    Eligible (similarLength name) name = Admissible (tolerance name.utf8ByteSize) name := by
  funext c
  have hgap : similarLength name c ↔ lengthGap name c ≤ tolerance name.utf8ByteSize :=
    decide_eq_true_iff
  rw [Eligible, hgap, lengthGap, Admissible, eq_iff_iff]
  omega

theorem tolerance_eq {m bytes : Nat}
    (h : bytes ≤ 2 ∧ m = 1 ∨ (3 ≤ bytes ∧ bytes ≤ 5) ∧ m = 2 ∨ 6 ≤ bytes ∧ m = 3) :
    tolerance bytes = m := by
  rw [tolerance]
  grind

/-- The earliest of the nearest admissible candidates is suggested, and nothing just if there is
none. Among names of basic Latin characters the choice by length makes no difference. -/
theorem suggest?_nearest (name : String) (candidates : List String) (m : Nat)
    (hm : name.utf8ByteSize ≤ 2 ∧ m = 1 ∨
      (3 ≤ name.utf8ByteSize ∧ name.utf8ByteSize ≤ 5) ∧ m = 2 ∨
      6 ≤ name.utf8ByteSize ∧ m = 3) :
    (∀ help, suggest? name candidates = some help ↔
      ∃ c, EarliestNearest (Admissible m name) name candidates c ∧
        help = "did you mean `" ++ c ++ "`?") ∧
    (suggest? name candidates = none ↔ ∀ c ∈ candidates, ¬ Admissible m name c) ∧
    (IsLatin name → (∀ c ∈ candidates, IsLatin c) →
      suggest? name candidates = suggestWhere? (fun _ => true) name candidates) := by
  rw [suggest?_eq, ← tolerance_eq hm, ← eligible_similarLength]
  exact ⟨suggestWhere?_eq_some_iff candidates, suggestWhere?_eq_none_iff candidates,
    suggestWhere?_of_latin⟩

/-- Of two candidates one edit away the first is suggested. -/
theorem suggest?_nearest_snakeCase :
    6 ≤ "snake_case".utf8ByteSize ∧
    (∃ c, EarliestNearest (Admissible 3 "snake_case") "snake_case"
        ["camel-case", "snake-case", "snakecase"] c ∧
      "did you mean `snake-case`?" = "did you mean `" ++ c ++ "`?") ∧
    suggest? "snake_case" ["camel-case", "snake-case", "snakecase"] =
      suggestWhere? (fun _ => true) "snake_case" ["camel-case", "snake-case", "snakecase"] := by
  have hsize : 6 ≤ "snake_case".utf8ByteSize := by decide
  have hlatin : IsLatin "snake_case" ∧
      ∀ c ∈ ["camel-case", "snake-case", "snakecase"], IsLatin c := by
    simp [IsLatin]
  have hnearest := suggest?_nearest "snake_case" ["camel-case", "snake-case", "snakecase"] 3
    (.inr (.inr ⟨hsize, rfl⟩))
  have hfound : suggest? "snake_case" ["camel-case", "snake-case", "snakecase"] =
      some "did you mean `snake-case`?" := by decide +kernel
  exact ⟨hsize, (hnearest.1 _).mp hfound, hnearest.2.2 hlatin.1 hlatin.2⟩

end LetScript
