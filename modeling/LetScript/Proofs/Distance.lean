import LetScript.Diagnostic.Suggestion
import Mathlib.Order.Bounds.Basic

/-! Edits of single characters between two texts. The table of distances goes through the texts
from the left and keeps one row. Main statement: its last entry is the least number of edits that
turn one text into the other, and so the value of the recursion on the ends of the texts. -/
namespace LetScript

/-- One edit: a character is put in, taken out or replaced, at the front or further on. -/
inductive Edit : List Char → List Char → Prop
  | insert (c : Char) (a : List Char) : Edit a (c :: a)
  | delete (c : Char) (a : List Char) : Edit (c :: a) a
  | substitute (c d : Char) (a : List Char) : Edit (c :: a) (d :: a)
  | later (c : Char) {a b : List Char} (h : Edit a b) : Edit (c :: a) (c :: b)

/-- A number of edits, one after the other. -/
inductive Edits : Nat → List Char → List Char → Prop
  | none (a : List Char) : Edits 0 a a
  | more {n : Nat} {a b t : List Char} (first : Edit a b) (rest : Edits n b t) : Edits (n + 1) a t

/-- The distance of two texts from the distances of their ends. -/
def levenshtein : List Char → List Char → Nat
  | [], b => b.length
  | c :: a, [] => (c :: a).length
  | c :: a, d :: b =>
    min (min (levenshtein a (d :: b) + 1) (levenshtein (c :: a) b + 1))
      (levenshtein a b + if c = d then 0 else 1)
termination_by a b => a.length + b.length
decreasing_by all_goals simp only [List.length_cons]; omega

/-! ### The recursion -/

@[simp] theorem levenshtein_nil_left (b : List Char) : levenshtein [] b = b.length := by
  rw [levenshtein]

@[simp] theorem levenshtein_nil_right (a : List Char) : levenshtein a [] = a.length := by
  cases a with
  | nil => rw [levenshtein]
  | cons c a => rw [levenshtein]

theorem levenshtein_cons_cons (c d : Char) (a b : List Char) :
    levenshtein (c :: a) (d :: b) =
      min (min (levenshtein a (d :: b) + 1) (levenshtein (c :: a) b + 1))
        (levenshtein a b + if c = d then 0 else 1) := by
  rw [levenshtein]

theorem levenshtein_cons_left_le (c : Char) (a b : List Char) :
    levenshtein (c :: a) b ≤ levenshtein a b + 1 := by
  cases b with
  | nil => simp
  | cons d b =>
    rw [levenshtein_cons_cons]
    omega

theorem levenshtein_cons_right_le (d : Char) (a b : List Char) :
    levenshtein a (d :: b) ≤ levenshtein a b + 1 := by
  cases a with
  | nil => simp
  | cons c a =>
    rw [levenshtein_cons_cons]
    omega

@[simp] theorem levenshtein_self (a : List Char) : levenshtein a a = 0 := by
  induction a with
  | nil => simp
  | cons c a ih =>
    rw [levenshtein_cons_cons, ih, if_pos rfl]
    omega

/-! ### No fewer edits -/

/-- One edit brings a text at most one step nearer to any other. -/
theorem Edit.levenshtein_le {a b : List Char} (h : Edit a b) (t : List Char) :
    levenshtein a t ≤ levenshtein b t + 1 := by
  induction h generalizing t with
  | insert c a =>
    induction t with
    | nil => simp; omega
    | cons d t ih =>
      have hright := levenshtein_cons_right_le d a t
      rw [levenshtein_cons_cons]
      omega
  | delete c a => exact levenshtein_cons_left_le c a t
  | substitute c e a =>
    induction t with
    | nil => simp
    | cons d t ih =>
      rw [levenshtein_cons_cons, levenshtein_cons_cons]
      split <;> omega
  | @later c a b _ step =>
    induction t with
    | nil =>
      have hlength := step []
      simpa using hlength
    | cons d t ih =>
      have htail := step t
      have hwhole := step (d :: t)
      rw [levenshtein_cons_cons, levenshtein_cons_cons]
      omega

theorem Edits.levenshtein_le {n : Nat} {a b : List Char} (h : Edits n a b) :
    levenshtein a b ≤ n := by
  induction h with
  | none a => exact (levenshtein_self a).le
  | @more n a b t first _ ih =>
    have hstep := first.levenshtein_le t
    omega

/-! ### So many edits -/

namespace Edits

theorem later (e : Char) {n : Nat} {a b : List Char} (h : Edits n a b) :
    Edits n (e :: a) (e :: b) := by
  induction h with
  | none a => exact .none _
  | more first _ ih => exact .more (.later e first) ih

theorem concat {n : Nat} {a b t : List Char} (h : Edits n a b) (last : Edit b t) :
    Edits (n + 1) a t := by
  induction h with
  | none a => exact .more last (.none t)
  | more first _ ih => exact .more first (ih last)

end Edits

theorem edits_length_left (b : List Char) : Edits b.length [] b := by
  induction b with
  | nil => exact .none []
  | cons d b ih => exact ih.concat (.insert d b)

theorem edits_length_right (a : List Char) : Edits a.length a [] := by
  induction a with
  | nil => exact .none []
  | cons c a ih => exact .more (.delete c a) ih

theorem edits_levenshtein (a b : List Char) : Edits (levenshtein a b) a b := by
  fun_induction levenshtein a b with
  | case1 b => exact edits_length_left b
  | case2 c a => exact edits_length_right (c :: a)
  | case3 c a d b ihDelete ihInsert ihBoth =>
    have hdelete := Edits.more (.delete c a) ihDelete
    have hinsert := ihInsert.concat (.insert d b)
    have hboth : Edits (levenshtein a b + if c = d then 0 else 1) (c :: a) (d :: b) := by
      split
      · rename_i hcd
        rw [hcd]
        exact ihBoth.later d
      · exact .more (.substitute c d a) (ihBoth.later d)
    grind

theorem isLeast_levenshtein (a b : List Char) : IsLeast {n | Edits n a b} (levenshtein a b) :=
  ⟨edits_levenshtein a b, fun _ h => Edits.levenshtein_le h⟩

/-! ### Lengths -/

theorem Edit.length_le {a b : List Char} (h : Edit a b) :
    a.length ≤ b.length + 1 ∧ b.length ≤ a.length + 1 := by
  induction h with
  | insert c a => exact ⟨by rw [List.length_cons]; omega, by rw [List.length_cons]⟩
  | delete c a => exact ⟨by rw [List.length_cons], by rw [List.length_cons]; omega⟩
  | substitute c d a => simp
  | later c _ ih => simpa using ih

theorem Edits.length_le {n : Nat} {a b : List Char} (h : Edits n a b) :
    a.length ≤ b.length + n ∧ b.length ≤ a.length + n := by
  induction h with
  | none a => simp
  | more first _ ih =>
    have hfirst := first.length_le
    omega

/-- Texts are at least as far apart as their lengths. -/
theorem length_le_levenshtein (a b : List Char) :
    a.length ≤ b.length + levenshtein a b ∧ b.length ≤ a.length + levenshtein a b :=
  (edits_levenshtein a b).length_le

/-! ### From the other side -/

theorem Edit.append_left (u : List Char) {a b : List Char} (h : Edit a b) :
    Edit (u ++ a) (u ++ b) := by
  induction u with
  | nil => exact h
  | cons e u ih => exact .later e ih

theorem Edit.append_right {a b : List Char} (h : Edit a b) (w : List Char) :
    Edit (a ++ w) (b ++ w) := by
  induction h with
  | insert c a => exact .insert c (a ++ w)
  | delete c a => exact .delete c (a ++ w)
  | substitute c d a => exact .substitute c d (a ++ w)
  | later c _ ih => exact .later c ih

theorem Edit.reverse {a b : List Char} (h : Edit a b) : Edit a.reverse b.reverse := by
  induction h with
  | insert c a => simpa using (Edit.insert c []).append_left a.reverse
  | delete c a => simpa using (Edit.delete c []).append_left a.reverse
  | substitute c d a => simpa using (Edit.substitute c d []).append_left a.reverse
  | later c _ ih => simpa using ih.append_right [c]

theorem Edits.reverse {n : Nat} {a b : List Char} (h : Edits n a b) :
    Edits n a.reverse b.reverse := by
  induction h with
  | none a => exact .none a.reverse
  | more first _ ih => exact .more first.reverse ih

@[simp] theorem levenshtein_reverse (a b : List Char) :
    levenshtein a.reverse b.reverse = levenshtein a b := by
  apply Nat.le_antisymm
  · exact (edits_levenshtein a b).reverse.levenshtein_le
  · have hback := (edits_levenshtein a.reverse b.reverse).reverse
    rw [List.reverse_reverse, List.reverse_reverse] at hback
    exact hback.levenshtein_le

/-- The same recursion from the beginnings of the texts. -/
theorem levenshtein_concat (c d : Char) (a b : List Char) :
    levenshtein (a ++ [c]) (b ++ [d]) =
      min (min (levenshtein a (b ++ [d]) + 1) (levenshtein (a ++ [c]) b + 1))
        (levenshtein a b + if c = d then 0 else 1) := by
  rw [← levenshtein_reverse, ← levenshtein_reverse a (b ++ [d]), ← levenshtein_reverse (a ++ [c]) b,
    ← levenshtein_reverse a b, List.reverse_concat, List.reverse_concat]
  exact levenshtein_cons_cons c d a.reverse b.reverse

/-! ### Rows of the table -/

/-- The distances of `a` from the beginnings of `seen ++ rest` that hold `seen`. -/
def distanceRow (a seen : List Char) : List Char → List Nat
  | [] => [levenshtein a seen]
  | d :: rest => levenshtein a seen :: distanceRow a (seen ++ [d]) rest

theorem distanceRow_eq_cons (a seen rest : List Char) :
    distanceRow a seen rest = levenshtein a seen :: (distanceRow a seen rest).tail := by
  cases rest <;> rfl

@[simp] theorem distanceRow_nil (seen rest : List Char) :
    distanceRow [] seen rest = List.range' seen.length (rest.length + 1) := by
  induction rest generalizing seen with
  | nil => simp [distanceRow]
  | cons d rest ih =>
    rw [distanceRow, ih, levenshtein_nil_left, List.length_append, List.length_singleton]
    rfl

@[simp] theorem getLastD_distanceRow (a seen rest : List Char) :
    (distanceRow a seen rest).getLastD 0 = levenshtein a (seen ++ rest) := by
  induction rest generalizing seen with
  | nil => simp [distanceRow]
  | cons d rest ih =>
    have htail := ih (seen ++ [d])
    rw [distanceRow_eq_cons] at htail
    rw [distanceRow, distanceRow_eq_cons]
    simpa using htail

/-- One step of the table: the row for `a` gives the row for one more character. -/
theorem distancesFrom_distanceRow (c : Char) (a seen rest : List Char) :
    distancesFrom c (levenshtein (a ++ [c]) seen) rest (distanceRow a seen rest) =
      (distanceRow (a ++ [c]) seen rest).tail := by
  induction rest generalizing seen with
  | nil => simp [distancesFrom, distanceRow]
  | cons d rest ih =>
    have hup := distanceRow_eq_cons a (seen ++ [d]) rest
    have hnext := distanceRow_eq_cons (a ++ [c]) (seen ++ [d]) rest
    have htail := ih (seen ++ [d])
    rw [hup] at htail
    rw [distanceRow, hup, distancesFrom, ← levenshtein_concat, htail, distanceRow, List.tail_cons,
      ← hnext]

theorem nextDistances_distanceRow (c : Char) (a b : List Char) :
    nextDistances b (distanceRow a [] b) c = distanceRow (a ++ [c]) [] b := by
  have hfirst : (distanceRow a [] b).headD 0 + 1 = levenshtein (a ++ [c]) [] := by
    rw [distanceRow_eq_cons]
    simp
  rw [nextDistances, hfirst, distancesFrom_distanceRow, ← distanceRow_eq_cons]

/-- A whole run through a text. -/
theorem foldl_nextDistances (a done b : List Char) :
    a.foldl (nextDistances b) (distanceRow done [] b) = distanceRow (done ++ a) [] b := by
  induction a generalizing done with
  | nil => simp
  | cons c a ih => rw [List.foldl_cons, nextDistances_distanceRow, ih, List.append_assoc,
      List.singleton_append]

theorem editDistance_eq_levenshtein (a b : List Char) : editDistance a b = levenshtein a b := by
  have hstart : List.range (b.length + 1) = distanceRow [] [] b := by
    rw [distanceRow_nil, List.range_eq_range']
    rfl
  rw [editDistance, hstart, foldl_nextDistances, getLastD_distanceRow, List.nil_append,
    List.nil_append]

/-- The computed distance is the least number of edits that turn one text into the other, and the
value of the recursion. -/
theorem editDistance_isLeast (a b : List Char) :
    IsLeast {n | Edits n a b} (editDistance a b) ∧ editDistance a b = levenshtein a b := by
  rw [editDistance_eq_levenshtein]
  exact ⟨isLeast_levenshtein a b, rfl⟩

example : editDistance "kitten".toList "sitting".toList = 3 := by decide

end LetScript
