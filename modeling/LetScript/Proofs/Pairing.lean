import LetScript.Proofs.Access
import LetScript.Proofs.Braces
import Mathlib.Order.Bounds.Basic

/-! Pairs of brackets. A bracket is closed where the height of the brackets first comes back to
what it was, and so no two pairs of one sort cross. Main statement: the searches of the reader and
of the rules of style find these pairs in any list of tokens, and trivia makes no difference. -/
namespace LetScript

open Guarded

namespace Bracket

/-! ### Three searches -/

/-- The index at which the tokens behind the index `i` are cut. -/
def closes? (b : Bracket) (ts : List Token) (i : Nat) : Option Nat :=
  (cutAtClose b.opening b.closing 0 (ts.drop (i + 1))).map fun r => i + 1 + r.1.length

section
variable {b : Bracket} {ts : List Token} {i j k : Nat}

theorem exists_drop_of_kindIs {kind : Kind} (h : kindIs ts i kind) :
    ∃ t, t.kind = kind ∧ ts.drop i = t :: ts.drop (i + 1) := by
  obtain ⟨t, ht, hk⟩ := kindIs_iff.mp h
  obtain ⟨hlt, rfl⟩ := List.getElem?_eq_some_iff.mp ht
  exact ⟨_, hk, List.drop_eq_getElem_cons hlt⟩

theorem matchingClose_eq (h : kindIs ts i b.opening) :
    matchingClose ts i = .ok (b.closes? ts i) := by
  obtain ⟨t, ht, hdrop⟩ := exists_drop_of_kindIs h
  exact matchingClose_of_drop b hdrop ht

theorem closingParen?_eq (h : kindIs ts i .openParen) :
    closingParen? ts i = paren.closes? ts i := by
  obtain ⟨t, ht, hdrop⟩ := exists_drop_of_kindIs h
  exact closingParen?_of_drop hdrop ht

theorem cutAtClose_eq (b : Bracket) (ts : List Token) (i : Nat) :
    cutAtClose b.opening b.closing 0 (ts.drop (i + 1)) =
      (b.closes? ts i).map fun j => (part ts (i + 1) j, ts.drop (j + 1)) := by
  unfold closes?
  cases hcut : cutAtClose b.opening b.closing 0 (ts.drop (i + 1)) with
  | none => rfl
  | some r =>
    obtain ⟨inside, rest⟩ := r
    obtain ⟨-, c, -, hdrop⟩ := eq_of_cutAtClose hcut
    have hrest : ts.drop (i + 1 + inside.length + 1) = rest :=
      drop_succ_of_drop (drop_of_append hdrop)
    simp only [Option.map_some, part_of_drop hdrop, hrest]

/-! ### Height -/

/-- How many more brackets are opened than closed in front of the index `k`. -/
def height (b : Bracket) (ts : List Token) (k : Nat) : Int :=
  countKind b.opening (ts.take k) - countKind b.closing (ts.take k)

theorem height_eq_add (h : i ≤ k) :
    b.height ts k = b.height ts i +
      (countKind b.opening (part ts i k) - countKind b.closing (part ts i k)) := by
  simp only [height, take_eq_part h, countKind_append]
  omega

/-- Behind an opening bracket the height is what the walk from there on says. -/
theorem height_of_depthAfter (h : kindIs ts i b.opening) {m e : Nat}
    (he : depthAfter b.opening b.closing 0 ((ts.drop (i + 1)).take m) = some e) :
    b.height ts (i + 1 + m) = b.height ts i + 1 + e := by
  obtain ⟨t, ht, hdrop⟩ := exists_drop_of_kindIs h
  have hpart : part ts i (i + 1 + m) = t :: (ts.drop (i + 1)).take m := by
    rw [part, hdrop, show i + 1 + m - i = m + 1 by omega, List.take_succ_cons]
  have hdepth : depthAfter b.opening b.closing 0 (part ts i (i + 1 + m)) = some (e + 1) := by
    rw [hpart, depthAfter_open ht]
    exact depthAfter_add he 1
  have hcount := countKind_of_depthAfter b.opening_ne_closing hdepth
  rw [height_eq_add (show i ≤ i + 1 + m by omega)]
  omega

theorem height_lt_of_depthAfter (h : kindIs ts i b.opening) {n e : Nat}
    (he : depthAfter b.opening b.closing 0 ((ts.drop (i + 1)).take n) = some e)
    (hk : i < k) (hkn : k ≤ i + 1 + n) : b.height ts i < b.height ts k := by
  obtain ⟨m, rfl⟩ := Nat.exists_eq_add_of_lt hk
  rw [← List.take_append_drop m ((ts.drop (i + 1)).take n), List.take_take,
    Nat.min_eq_left (show m ≤ n by omega)] at he
  obtain ⟨e', he'⟩ := exists_depth_of_append he
  rw [show i + m + 1 = i + 1 + m by omega, height_of_depthAfter h he']
  omega

theorem height_succ_of_closing {c : Token} (h : ts[j]? = some c) (hc : c.kind = b.closing) :
    b.height ts (j + 1) = b.height ts j - 1 := by
  have hne : c.kind ≠ b.opening := fun he => b.opening_ne_closing (he.symm.trans hc)
  have htake : ts.take (j + 1) = ts.take j ++ [c] := by
    rw [List.take_add_one, h]
    rfl
  have hopened : countKind b.opening [c] = 0 := by simp [countKind, hne]
  have hclosed : countKind b.closing [c] = 1 := by simp [countKind, hc]
  simp only [height, htake, countKind_append, hopened, hclosed]
  omega

/-- From an opening bracket at `i` to the bracket at `j` that closes it the height lies above what
it was before, and behind `j` it is there again. -/
structure Spans (b : Bracket) (ts : List Token) (i j : Nat) : Prop where
  lt : i < j
  within : j < ts.length
  back : b.height ts (j + 1) = b.height ts i
  above : ∀ k, i < k → k ≤ j → b.height ts i < b.height ts k

theorem spans_of_closes? (h : kindIs ts i b.opening) (hj : b.closes? ts i = some j) :
    b.Spans ts i j := by
  obtain ⟨⟨inside, rest⟩, hcut, rfl⟩ := Option.map_eq_some_iff.mp hj
  obtain ⟨hdepth, c, hc, hdrop⟩ := eq_of_cutAtClose hcut
  dsimp only
  have hclose : ts.drop (i + 1 + inside.length) = c :: rest := drop_of_append hdrop
  have htake : (ts.drop (i + 1)).take inside.length = inside := by rw [hdrop, List.take_left]
  have hwalk := htake.symm ▸ hdepth
  refine ⟨by omega, lt_length_of_drop hclose, ?_, fun k => height_lt_of_depthAfter h hwalk⟩
  rw [height_succ_of_closing (getElem?_of_drop hclose) hc, height_of_depthAfter h hwalk]
  omega

theorem height_lt_of_closes? (h : kindIs ts i b.opening) (hn : b.closes? ts i = none)
    (hk : i < k) (hlen : k ≤ ts.length) : b.height ts i < b.height ts k := by
  obtain ⟨e, he⟩ := exists_depth_of_cutAtClose (Option.map_eq_none_iff.mp hn)
  rw [← @List.take_length _ (ts.drop (i + 1))] at he
  refine height_lt_of_depthAfter h he hk ?_
  rw [List.length_drop]
  omega

/-- Two pairs of one sort of brackets lie apart or one inside the other. -/
theorem Spans.apart {i' j' : Nat} (h : b.Spans ts i j) (h' : b.Spans ts i' j') (hlt : i < i') :
    j < i' ∨ j' < j := by
  by_contra hcross
  rw [not_or, Nat.not_lt, Nat.not_lt] at hcross
  have hinside := h.above i' hlt hcross.1
  have hback := h.back
  rcases Nat.eq_or_lt_of_le hcross.2 with rfl | hjj
  · have hback' := h'.back
    omega
  · have habove := h'.above (j + 1) (by omega) hjj
    omega

theorem Spans.left_unique {i' : Nat} (h : b.Spans ts i j) (h' : b.Spans ts i' j) : i = i' := by
  rcases Nat.lt_trichotomy i i' with hlt | heq | hlt
  · have := h.apart h' hlt
    have := h'.lt
    omega
  · exact heq
  · have := h'.apart h hlt
    have := h.lt
    omega

/-! ### The first even index -/

/-- From the index `i` to the index `j`, both included, as many brackets are closed as opened. -/
structure Evens (b : Bracket) (ts : List Token) (i j : Nat) : Prop where
  lt : i < j
  within : j < ts.length
  equal : countKind b.opening (part ts i (j + 1)) = countKind b.closing (part ts i (j + 1))

theorem Evens.height_eq (h : b.Evens ts i j) : b.height ts (j + 1) = b.height ts i := by
  have hlt := h.lt
  rw [height_eq_add (show i ≤ j + 1 by omega), h.equal]
  omega

theorem Spans.evens (h : b.Spans ts i j) : b.Evens ts i j := by
  have hlt := h.lt
  have hback := h.back
  rw [height_eq_add (show i ≤ j + 1 by omega)] at hback
  exact ⟨hlt, h.within, by omega⟩

theorem Spans.isLeast (h : b.Spans ts i j) : IsLeast {j | b.Evens ts i j} j := by
  refine ⟨h.evens, fun k hk => ?_⟩
  by_contra hkj
  have hlt := hk.lt
  have habove := h.above (k + 1) (by omega) (by omega)
  have hback := hk.height_eq
  omega

section
variable (h : kindIs ts i b.opening)
include h

theorem closes?_eq_none_iff : b.closes? ts i = none ↔ ¬ ∃ j, b.Evens ts i j := by
  constructor
  · rintro hn ⟨j, hj⟩
    have hlt := hj.lt
    have habove := height_lt_of_closes? h hn (show i < j + 1 by omega) hj.within
    have hback := hj.height_eq
    omega
  · intro hnone
    cases hj : b.closes? ts i with
    | none => rfl
    | some j => exact absurd ⟨j, (spans_of_closes? h hj).evens⟩ hnone

theorem closes?_eq_some_iff : b.closes? ts i = some j ↔ IsLeast {j | b.Evens ts i j} j := by
  constructor
  · intro hj
    exact (spans_of_closes? h hj).isLeast
  · intro hleast
    cases hk : b.closes? ts i with
    | none => exact absurd ⟨j, hleast.1⟩ ((closes?_eq_none_iff h).mp hk)
    | some k => rw [(spans_of_closes? h hk).isLeast.unique hleast]

end

/-! ### Without trivia -/

@[simp] theorem isTrivia_opening (b : Bracket) : b.opening.isTrivia = false := by cases b <;> rfl

@[simp] theorem isTrivia_closing (b : Bracket) : b.closing.isTrivia = false := by cases b <;> rfl

end
end Bracket

/-- The index that a token has once the trivia is taken out. -/
def keptIndex (ts : List Token) (i : Nat) : Nat := (significant (ts.take i)).length

section
variable {ts : List Token} {t : Token} {i : Nat} (h : ts[i]? = some t) (ht : t.isTrivia = false)
include h ht

theorem significant_eq_split :
    significant ts = significant (ts.take i) ++ t :: significant (ts.drop (i + 1)) := by
  obtain ⟨hlt, rfl⟩ := List.getElem?_eq_some_iff.mp h
  conv_lhs => rw [← List.take_append_drop i ts, List.drop_eq_getElem_cons hlt]
  simp only [significant, List.filter_append, List.filter_cons, ht, Bool.not_false, if_true]

@[simp] theorem getElem?_keptIndex : (significant ts)[keptIndex ts i]? = some t := by
  rw [significant_eq_split h ht, keptIndex, List.getElem?_append_right (Nat.le_refl _),
    Nat.sub_self]
  rfl

@[simp] theorem drop_keptIndex :
    (significant ts).drop (keptIndex ts i + 1) = significant (ts.drop (i + 1)) := by
  rw [significant_eq_split h ht, keptIndex, ← List.drop_drop, List.drop_left]
  rfl

theorem keptIndex_add {inside rest : List Token} (hdrop : ts.drop (i + 1) = inside ++ rest) :
    keptIndex ts (i + 1 + inside.length) = keptIndex ts i + 1 + (significant inside).length := by
  have htake : ts.take (i + 1 + inside.length) = ts.take i ++ t :: inside := by
    rw [List.take_add, hdrop, List.take_left, List.take_add_one, h, Option.toList_some,
      List.append_assoc]
    rfl
  simp only [keptIndex, htake, significant, List.filter_append, List.filter_cons, ht,
    Bool.not_false, if_true, List.length_append, List.length_cons]
  omega

end

namespace Bracket

variable {b : Bracket} {ts : List Token} {i : Nat}

theorem exists_solid_of_kindIs (h : kindIs ts i b.opening) :
    ∃ t, ts[i]? = some t ∧ t.kind = b.opening ∧ t.isTrivia = false := by
  obtain ⟨t, ht, hk⟩ := kindIs_iff.mp h
  exact ⟨t, ht, hk, by rw [Token.isTrivia, hk, b.isTrivia_opening]⟩

theorem kindIs_significant (h : kindIs ts i b.opening) :
    kindIs (significant ts) (keptIndex ts i) b.opening := by
  obtain ⟨t, ht, hk, hsolid⟩ := exists_solid_of_kindIs h
  exact kindIs_iff.mpr ⟨t, getElem?_keptIndex ht hsolid, hk⟩

/-- The bracket that closes another is the same token with the trivia and without. -/
theorem closes?_significant (h : kindIs ts i b.opening) :
    b.closes? (significant ts) (keptIndex ts i) = (b.closes? ts i).map (keptIndex ts) := by
  obtain ⟨t, ht, -, hsolid⟩ := exists_solid_of_kindIs h
  rw [closes?, closes?, drop_keptIndex ht hsolid,
    cutAtClose_significant b.isTrivia_opening b.isTrivia_closing]
  cases hcut : cutAtClose b.opening b.closing 0 (ts.drop (i + 1)) with
  | none => rfl
  | some r =>
    obtain ⟨inside, rest⟩ := r
    obtain ⟨-, c, -, hdrop⟩ := eq_of_cutAtClose hcut
    simp only [Option.map_some, keptIndex_add ht hsolid hdrop]

/-! ### The pairs of a list -/

/-- The search from an opening bracket at the index `i` ends at the index `j`. -/
def Pairs (b : Bracket) (ts : List Token) (i j : Nat) : Prop :=
  kindIs ts i b.opening ∧ matchingClose ts i = .ok (some j)

theorem Pairs.spans {j : Nat} (h : b.Pairs ts i j) : b.Spans ts i j := by
  refine spans_of_closes? h.1 ?_
  have hj := h.2
  rw [matchingClose_eq h.1] at hj
  exact Except.ok.inj hj

end Bracket

/-- The search from an opening bracket never fails a check. It ends at the first index up to which
as many brackets are closed as opened, and without an index if there is none. For parentheses the
rules of style find the same, the reader cuts the tokens there, and without the trivia it is the
same token. Two brackets of one sort are never closed by the same one, and their pairs lie apart or
one inside the other. -/
theorem matchingClose_pairs (ts : List Token) :
    (∀ i, kindIs ts i .openParen → matchingClose ts i = .ok (closingParen? ts i)) ∧
    (∀ i t, ts[i]? = some t → t.isTrivia = false →
      (significant ts)[keptIndex ts i]? = some t) ∧
    ∀ b : Bracket,
      (∀ i, kindIs ts i b.opening → ∃ answer, matchingClose ts i = .ok answer ∧
        (∀ j, answer = some j ↔ IsLeast {j | b.Evens ts i j} j) ∧
        (answer = none ↔ ¬ ∃ j, b.Evens ts i j) ∧
        cutAtClose b.opening b.closing 0 (ts.drop (i + 1)) =
          answer.map (fun j => (part ts (i + 1) j, ts.drop (j + 1))) ∧
        matchingClose (significant ts) (keptIndex ts i) = .ok (answer.map (keptIndex ts))) ∧
      (∀ i i' j, b.Pairs ts i j → b.Pairs ts i' j → i = i') ∧
      ∀ i i' j j', b.Pairs ts i j → b.Pairs ts i' j' → i < i' → j < i' ∨ j' < j := by
  refine ⟨fun i h => ?_, fun i t => getElem?_keptIndex, fun b => ⟨fun i h => ?_, ?_, ?_⟩⟩
  · rw [Bracket.closingParen?_eq h]
    exact Bracket.matchingClose_eq (show kindIs ts i Bracket.paren.opening from h)
  · refine ⟨b.closes? ts i, Bracket.matchingClose_eq h, fun j => Bracket.closes?_eq_some_iff h,
      Bracket.closes?_eq_none_iff h, b.cutAtClose_eq ts i, ?_⟩
    have hkept : kindIs (significant ts) (keptIndex ts i) b.opening := Bracket.kindIs_significant h
    rw [Bracket.matchingClose_eq hkept, Bracket.closes?_significant h]
  · intro i i' j h h'
    exact h.spans.left_unique h'.spans
  · intro i i' j j' h h' hlt
    exact h.spans.apart h'.spans hlt

/-- An unbalanced list in which braces and parentheses cross. The parentheses at 2 and 4 are nested,
and the one at 1 is not closed. -/
theorem matchingClose_pairs_crossed :
    let ts : List Token := [.raw .closeParen ")" ⟨1, 0⟩, .raw .openParen "(" ⟨1, 1⟩,
      .raw .openParen "(" ⟨1, 2⟩, .space ⟨1, 3⟩, .raw .openParen "(" ⟨1, 4⟩,
      .raw .closeParen ")" ⟨1, 5⟩, .raw .closeParen ")" ⟨1, 6⟩, .raw .openBrace "\x7b" ⟨1, 7⟩,
      .raw .openParen "(" ⟨1, 8⟩, .raw .closeBrace "\x7d" ⟨1, 9⟩, .raw .closeParen ")" ⟨1, 10⟩]
    (kindIs ts 2 .openParen ∧ matchingClose ts 2 = .ok (closingParen? ts 2)) ∧
      (significant ts)[keptIndex ts 5]? = some (.raw .closeParen ")" ⟨1, 5⟩) ∧
      (matchingClose ts 1 = .ok none ∧ ¬ ∃ j, Bracket.paren.Evens ts 1 j) ∧
      (Bracket.brace.Pairs ts 7 9 ∧ IsLeast {j | Bracket.brace.Evens ts 7 j} 9) ∧
      (Bracket.paren.Pairs ts 2 6 ∧ Bracket.paren.Pairs ts 4 5 ∧ (6 < 4 ∨ 5 < 6)) ∧
      Bracket.paren.Pairs ts 4 5 ∧ Bracket.paren.Pairs ts 8 10 ∧ (5 < 8 ∨ 10 < 5) := by
  intro ts
  obtain ⟨hagree, hkept, hpairs⟩ := matchingClose_pairs ts
  obtain ⟨hparen, -, hapart⟩ := hpairs .paren
  obtain ⟨unclosed, hnone, -, hopen, -⟩ := hparen 1 (by decide)
  obtain rfl := Except.ok.inj (hnone.symm.trans (show matchingClose ts 1 = .ok none by decide))
  obtain ⟨close, hclose, hleast, -⟩ := (hpairs .brace).1 7 (by decide)
  obtain rfl := Except.ok.inj (hclose.symm.trans (show matchingClose ts 7 = .ok (some 9) by decide))
  have houter : Bracket.paren.Pairs ts 2 6 := ⟨by decide, by decide⟩
  have hinner : Bracket.paren.Pairs ts 4 5 := ⟨by decide, by decide⟩
  have hlast : Bracket.paren.Pairs ts 8 10 := ⟨by decide, by decide⟩
  exact ⟨⟨houter.1, hagree 2 houter.1⟩, hkept 5 _ rfl rfl, ⟨hnone, hopen.mp rfl⟩,
    ⟨⟨by decide, hclose⟩, (hleast 9).mp rfl⟩,
    ⟨houter, hinner, hapart 2 4 6 5 houter hinner (by decide)⟩,
    hinner, hlast, hapart 4 8 5 10 hinner hlast (by decide)⟩

end LetScript
