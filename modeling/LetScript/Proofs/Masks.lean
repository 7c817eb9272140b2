import LetScript.Proofs.Indices
import LetScript.Proofs.Sign

/-! Masks: which tokens a fix of spacing is about, found index by index. As with
the fixes of layout, those of spacing are run once more with every index checked.
They read the neighbours of a token, look back for the last token of a sort, and
go through the list with a mask or with the indices of whole runs. -/
namespace LetScript

/-! ### Masks -/

/-- The last token before an index that passes a test. -/
def lastBefore? (p : Token → Bool) (ts : List Token) (i : Nat) : Option Nat :=
  ((ts.take i).reverse.findIdx? p).map (i - 1 - ·)

/-- Look back from an index for a token that passes a test. -/
def readLast (p : Token → Bool) (ts : List Token) (i : Nat) : Except Nat (Option Token) := do
  match ← searchAt (lastBefore? p) ts i with
  | none => return none
  | some j => return some (← readAt ts j)

@[simp] theorem readLast_append (p : Token → Bool) (front back : List Token) (t : Token) :
    readLast p (front ++ t :: back) front.length = .ok (front.filter p).getLast? := by
  rw [readLast, searchAt_eq (by simp), List.getLast?_filter, List.find?_eq_bind_findIdx?_getElem?,
    lastBefore?, List.take_left]
  cases hk : front.reverse.findIdx? p with
  | none => rfl
  | some k =>
    have hlt := (List.findIdx?_eq_some_iff_findIdx_eq.mp hk).1
    rw [List.length_reverse] at hlt
    have hread : (front ++ t :: back)[front.length - 1 - k]? = front.reverse[k]? := by
      rw [List.getElem?_append_left (by omega), List.getElem?_reverse hlt]
    obtain ⟨u, hu⟩ : ∃ u, front.reverse[k]? = some u :=
      ⟨_, List.getElem?_eq_getElem (by rwa [List.length_reverse])⟩
    simp only [ok_bind, Option.map_some, Option.bind_some, readAt_eq (hread.trans hu), hu,
      pure_eq_ok]

/-- A mask of a list: the outcome of a test at each index. -/
def maskChecked (test : List Token → Nat → Except Nat Bool) (ts : List Token) :
    Except Nat (List Bool) :=
  (List.range' 0 ts.length).mapM (test ts)

theorem maskChecked_eq {test : List Token → Nat → Except Nat Bool}
    {flags : List Token → List Token → List Bool} (hnil : ∀ front, flags front [] = [])
    (hcons : ∀ front t ts, ∃ b, test (front ++ t :: ts) front.length = .ok b ∧
      flags front (t :: ts) = b :: flags (front ++ [t]) ts) (ts : List Token) :
    maskChecked test ts = .ok (flags [] ts) := by
  have hfrom (front : List Token) :
      (List.range' front.length ts.length).mapM (test (front ++ ts)) = .ok (flags front ts) := by
    induction ts generalizing front with
    | nil =>
      rw [hnil]
      rfl
    | cons t ts ih =>
      obtain ⟨b, htest, hflags⟩ := hcons front t ts
      have ih := ih (front ++ [t])
      rw [List.length_append, List.length_singleton, List.append_assoc,
        List.singleton_append] at ih
      rw [List.length_cons, List.range'_succ, List.mapM_cons, htest, ok_bind, ih, hflags]
      rfl
  exact hfrom []

/-! ### Spaces around signs -/

namespace Padding

def colonAt (ts : List Token) (i : Nat) : Except Nat Bool := do
  return (← readAt ts i).kind = .colon

def equalSignAt (ts : List Token) (i : Nat) : Except Nat Bool := do
  return (← readAt ts i).isOperator .equal

def followsOperandAt (ts : List Token) (i : Nat) : Except Nat Bool := do
  return (← readLast (fun t => !t.isTrivia) ts i).any fun t => endsOperand t.kind

def binaryOperatorAt (ts : List Token) (i : Nat) : Except Nat Bool := do
  if (← readAt ts i).valueOperator?.isSome then followsOperandAt ts i else return false

/-- Put a token behind those that are out, with a space between if one is pending or if the token
is a target that wants one. -/
def put (s : Sides) (isTarget pending : Bool) (out : List Token) (t : Token) : List Token :=
  let out := if pending && !t.isTrivia then out ++ [.space t.position] else out
  let out :=
    if isTarget && s.before && touches out.getLast? then out ++ [.space t.position] else out
  out ++ [t]

/-- Go on with the tokens from an index on. -/
def putFrom (s : Sides) (targets : List Bool) (length : Nat) :
    Bool → List Token → Nat → List Token → Except Nat (List Token)
  | _, out, _, [] => return out
  | pending, out, i, t :: ts => do
    let isTarget ← readAt targets i
    putFrom s targets length (isTarget && s.after && i + 1 < length) (put s isTarget pending out t)
      (i + 1) ts

def fixChecked (s : Sides) (test : List Token → Nat → Except Nat Bool) (ts : List Token) :
    Except Nat (List Token) := do
  putFrom s (← maskChecked test ts) ts.length false [] 0 ts

/-- A test finds a target by its index. -/
def Finds (test : List Token → Nat → Except Nat Bool) (target : Target) : Prop :=
  ∀ front t back, test (front ++ t :: back) front.length =
    .ok (target (lastKind none (significant front)) t).isSome

theorem finds_colon (v : Violation) :
    Finds colonAt fun _ t => if t.kind = .colon then some v else none := by
  intro front t back
  simp only [colonAt, readAt_append, ok_bind, pure_eq_ok]
  split <;> simp_all

theorem finds_equalSign : Finds equalSignAt equalSign := by
  intro front t back
  simp only [equalSignAt, readAt_append, ok_bind, pure_eq_ok, equalSign]
  split <;> simp_all

theorem finds_binaryOperator : Finds binaryOperatorAt binaryOperator := by
  intro front t back
  have hoperand : followsOperandAt (front ++ t :: back) front.length =
      .ok ((lastKind none (significant front)).any endsOperand) := by
    rw [followsOperandAt, readLast_append, lastKind_none, Option.any_map]
    rfl
  rw [binaryOperatorAt, readAt_append, ok_bind, hoperand, isSome_binaryOperator]
  cases t.valueOperator?.isSome <;> rfl

section
variable {s : Sides} {target : Target}

theorem put_eq (u m : Marked) (front : List Token) :
    put s m.violation.isSome (u.violation.isSome && s.after) (front ++ [u.token]) m.token =
      front ++ (if needsSpace s u m then [u.token, .space m.token.position] else [u.token]) ++
        [m.token] := by
  have hspace (p : Position) : (Token.space p).isTrivia = true := rfl
  simp only [put, needsSpace]
  by_cases hafter : u.violation.isSome && s.after && !m.token.isTrivia
  · simp [hafter, touches, hspace]
  · by_cases hbefore : m.violation.isSome && s.before && !u.token.isTrivia <;>
      simp [hafter, hbefore, touches]

/-- The loop puts the spaces in that are needed between neighbours. When it comes to a token, the
one before it is the last one that is out, and a space is pending if that was a target. -/
theorem putFrom_eq {targets : List Bool} {length : Nat} {u : Marked} {prior : Option Kind}
    {ts front : List Token} {pending : Bool} {i : Nat} (hlength : length = i + ts.length)
    (htargets : targets.drop i = (markFrom target prior ts).map (·.violation.isSome))
    (hpending : ts ≠ [] → pending = (u.violation.isSome && s.after)) :
    putFrom s targets length pending (front ++ [u.token]) i ts =
      .ok (front ++ spread s (u :: markFrom target prior ts)) := by
  induction ts generalizing u prior front pending i with
  | nil => rfl
  | cons t ts ih =>
    obtain rfl := hpending (List.cons_ne_nil t ts)
    rw [markFrom, List.map_cons] at htargets
    have hread : targets[i]? = some (target prior t).isSome := by
      rw [← List.head?_drop, htargets, List.head?_cons]
    have hrest := congrArg List.tail htargets
    rw [List.tail_drop, List.tail_cons] at hrest
    have hnext : ts ≠ [] → ((target prior t).isSome && s.after && decide (i + 1 < length)) =
        ((target prior t).isSome && s.after) := by
      intro hne
      have hpos := List.length_pos_iff.mpr hne
      rw [decide_eq_true (by rw [hlength, List.length_cons]; omega), Bool.and_true]
    have hput := @put_eq s u ⟨t, target prior t⟩ front
    rw [putFrom, readAt_eq hread, ok_bind, hput, markFrom, spread,
      @ih ⟨t, target prior t⟩ _ _ _ _ (by rw [hlength, List.length_cons]; omega) hrest hnext]
    split <;> simp

theorem maskChecked_of_finds {test : List Token → Nat → Except Nat Bool} (h : Finds test target)
    (ts : List Token) :
    maskChecked test ts = .ok ((mark target ts).map (·.violation.isSome)) := by
  refine @maskChecked_eq test (fun front ts => (markFrom target
    (lastKind none (significant front)) ts).map (·.violation.isSome)) (fun _ => rfl) ?_ ts
  intro front t ts
  refine ⟨_, h front t ts, ?_⟩
  rw [markFrom, List.map_cons, lastKind_significant]

theorem fixChecked_eq {test : List Token → Nat → Except Nat Bool} (h : Finds test target)
    (ts : List Token) : fixChecked s test ts = .ok (fix s target ts) := by
  rw [fixChecked, maskChecked_of_finds h, ok_bind, fix, mark]
  cases ts with
  | nil => rfl
  | cons t ts =>
    have hput (isTarget : Bool) : put s isTarget false [] t = [] ++ [t] := by simp [put, touches]
    rw [putFrom, markFrom, List.map_cons, readAt_eq List.getElem?_cons_zero, ok_bind, hput]
    refine @putFrom_eq s target _ _ ⟨t, target none t⟩ _ ts [] _ 1 (Nat.add_comm ..) rfl ?_
    intro hne
    have hpos := List.length_pos_iff.mpr hne
    rw [decide_eq_true (by rw [List.length_cons]; omega), Bool.and_true]

end

end Padding

/-! ### Repeated spaces -/

namespace Blank

/-- Whether the token at an index is a blank behind another one, in a run of blanks that does not
open a line. -/
def repeatedSpaceAt (ts : List Token) (i : Nat) : Except Nat Bool := do
  if (← readAt ts i).kind ≠ .whitespace then return false
  else if i = 0 then return false
  else if (← readAt ts (i - 1)).kind ≠ .whitespace then return false
  else return (← readLast (fun t => t.kind ≠ .whitespace) ts i).any fun t => t.kind ≠ .newline

def fixSpacesChecked (ts : List Token) : Except Nat (List Token) := do
  return dropMarked (ts.zip (← maskChecked repeatedSpaceAt ts))

@[simp] theorem repeatedSpaceAt_append (front back : List Token) (t : Token) :
    repeatedSpaceAt (front ++ t :: back) front.length =
      .ok (Before.lineStart.after front = .space && t.kind = .whitespace) := by
  have hlast := readLast_append (fun t => t.kind ≠ .whitespace) front back t
  unfold repeatedSpaceAt
  rw [readAt_append, ok_bind, hlast]
  by_cases ht : t.kind = .whitespace
  · rcases List.eq_nil_or_concat front with rfl | ⟨front, u, rfl⟩
    · simp [ht, Before.after]
    · rw [List.concat_eq_append] at *
      have hread : readAt ((front ++ [u]) ++ t :: back) ((front ++ [u]).length - 1) = .ok u := by
        simp
      rw [hread, ok_bind, Before.after_append]
      by_cases hu : u.kind = .whitespace
      · simp [ht, hu, Before.after_singleton_eq_space, Before.after_lineStart]
      · simp [ht, hu, Before.after_singleton_eq_space]
  · simp [ht]

theorem fixSpacesChecked_eq (ts : List Token) : fixSpacesChecked ts = .ok (fixSpaces ts) := by
  have hmask : maskChecked repeatedSpaceAt ts = .ok ((markSpaces .lineStart ts).map Prod.snd) := by
    refine @maskChecked_eq repeatedSpaceAt (fun front ts =>
      (markSpaces (Before.lineStart.after front) ts).map Prod.snd) (fun _ => rfl) ?_ ts
    intro front t ts
    refine ⟨_, repeatedSpaceAt_append front ts t, ?_⟩
    rw [markSpaces, List.map_cons, Before.after_append]
    rfl
  have hzip := List.zip_of_prod (map_fst_markSpaces .lineStart ts) rfl
  rw [fixSpacesChecked, hmask, ok_bind, ← hzip]
  rfl

/-! ### Blank lines -/

/-- The runs of trivia from an index on, each as the index of its first token and the one behind
its last. A run that is not over yet began at `start`. -/
def runsFrom (start : Option Nat) (i : Nat) : List Token → List (Nat × Nat)
  | [] => (start.map fun s => (s, i)).toList
  | t :: ts =>
    if t.isTrivia then runsFrom (some (start.getD i)) (i + 1) ts
    else (start.map fun s => (s, i)).toList ++ runsFrom none (i + 1) ts

/-- The second line break of a run with more than two of them, and the last one. -/
def excessChecked (ts : List Token) (run : Nat × Nat) : Except Nat (Option (Nat × Nat)) := do
  let found ← (List.range' run.1 (run.2 - run.1)).filterMapM fun i => do
    return if (← readAt ts i).kind = .newline then some i else none
  if 2 < found.length then
    return some (← readAt found 1, ← readAt found (found.length - 1))
  else return none

/-- Whether an index lies behind the first of two indices and not behind the second. -/
def covers (i : Nat) (p : Nat × Nat) : Bool := p.1 < i && i ≤ p.2

/-- The tokens that no pair of indices covers. -/
def uncovered (dropped : List (Nat × Nat)) (ts : List (Token × Nat)) : List Token :=
  ts.filterMap fun (t, i) => if dropped.any (covers i) then none else some t

@[simp] theorem uncovered_cons (dropped : List (Nat × Nat)) (t : Token) (i : Nat)
    (ts : List (Token × Nat)) :
    uncovered dropped ((t, i) :: ts) =
      if dropped.any (covers i) then uncovered dropped ts else t :: uncovered dropped ts := by
  by_cases h : dropped.any (covers i) <;> simp [uncovered, h]

@[simp] theorem uncovered_append (dropped : List (Nat × Nat)) (ts us : List (Token × Nat)) :
    uncovered dropped (ts ++ us) = uncovered dropped ts ++ uncovered dropped us :=
  List.filterMap_append

def fixLinesChecked (ts : List Token) : Except Nat (List Token) := do
  return uncovered (← (runsFrom none 0 ts).filterMapM (excessChecked ts)) ts.zipIdx

def breaksIn (ts : List Token) (run : Nat × Nat) : List Nat :=
  (List.range' run.1 (run.2 - run.1)).filter (kindIs ts · .newline)

/-- The second and the last of more than two indices. -/
def secondAndLast? : List Nat → Option (Nat × Nat)
  | _ :: second :: third :: more => some (second, (third :: more).getLast (List.cons_ne_nil _ _))
  | _ => none

def excess? (ts : List Token) (run : Nat × Nat) : Option (Nat × Nat) :=
  secondAndLast? (breaksIn ts run)

theorem excessChecked_eq {ts : List Token} {run : Nat × Nat} (h : run.2 ≤ ts.length) :
    excessChecked ts run = .ok (excess? ts run) := by
  have hfound : ((List.range' run.1 (run.2 - run.1)).filterMapM fun i => do
      return if (← readAt ts i).kind = Kind.newline then some i else none) =
      .ok (breaksIn ts run) := by
    rw [breaksIn, ← List.filterMap_eq_filter]
    refine filterMapM_eq_ok fun i hi => ?_
    have hlt : i < ts.length := by
      have := List.mem_range'_1.mp hi
      omega
    have hread := List.getElem?_eq_getElem hlt
    rw [readAt_eq hread, ok_bind, pure_eq_ok, Option.guard, kindIs, hread]
    simp
  rw [excessChecked, hfound, ok_bind, excess?]
  generalize breaksIn ts run = found
  rcases found with _ | ⟨first, _ | ⟨second, _ | ⟨third, more⟩⟩⟩
  · rfl
  · rfl
  · rfl
  · have hsecond : readAt (first :: second :: third :: more) 1 = .ok second := rfl
    have hlast : (first :: second :: third :: more)[more.length + 2]? =
        some ((third :: more).getLast (List.cons_ne_nil _ _)) := by
      simp [List.getLast_eq_getElem]
    simp [secondAndLast?, hsecond, readAt_eq hlast]

theorem bounds_of_runsFrom {start : Option Nat} {i : Nat} {ts : List Token} {run : Nat × Nat}
    (h : run ∈ runsFrom start i ts) :
    (start = some run.1 ∨ i ≤ run.1) ∧ run.2 ≤ i + ts.length := by
  induction ts generalizing start i with
  | nil =>
    cases start with
    | none => cases h
    | some s =>
      obtain rfl := List.mem_singleton.mp h
      exact ⟨.inl rfl, Nat.le_refl _⟩
  | cons t ts ih =>
    have further {start' : Option Nat} (h : run ∈ runsFrom start' (i + 1) ts)
        (hstart : start' = some run.1 → start = some run.1 ∨ i ≤ run.1) :
        (start = some run.1 ∨ i ≤ run.1) ∧ run.2 ≤ i + (t :: ts).length := by
      obtain ⟨h₁, h₂⟩ := ih h
      rw [List.length_cons]
      exact ⟨h₁.elim hstart fun h => .inr (by omega), by omega⟩
    rw [runsFrom] at h
    split at h
    · refine further h fun hs => ?_
      cases start with
      | none => exact .inr (Nat.le_of_eq (Option.some.inj hs))
      | some s => exact .inl hs
    · rcases List.mem_append.mp h with h | h
      · obtain ⟨s, rfl, rfl⟩ : ∃ s, start = some s ∧ run = (s, i) := by
          cases start <;> simp_all
        exact ⟨.inl rfl, Nat.le_add_right ..⟩
      · exact further h nofun

theorem mem_breaksIn {ts : List Token} {run : Nat × Nat} {i : Nat} (h : i ∈ breaksIn ts run) :
    run.1 ≤ i ∧ i < run.2 := by
  have := List.mem_range'_1.mp (List.mem_of_mem_filter h)
  omega

theorem breaksIn_append (ts : List Token) (n k m : Nat) :
    breaksIn ts (n, n + k + m) = breaksIn ts (n, n + k) ++ breaksIn ts (n + k, n + k + m) := by
  simp only [breaksIn, Nat.add_sub_cancel_left, ← List.filter_append]
  rw [Nat.add_assoc, Nat.add_sub_cancel_left, ← List.range'_append_1]

theorem length_breaksIn (front as back : List Token) :
    (breaksIn (front ++ (as ++ back)) (front.length, front.length + as.length)).length =
      breaks as := by
  induction as generalizing front with
  | nil => simp [breaksIn]
  | cons t as ih =>
    have ih := ih (front ++ [t])
    simp only [List.append_assoc, List.singleton_append, List.length_append,
      List.length_singleton] at ih
    have hone := breaksIn_append (front ++ (t :: as ++ back)) front.length 1 as.length
    have hlength : front.length + (t :: as).length = front.length + 1 + as.length := by
      rw [List.length_cons]
      omega
    have hfirst : (breaksIn (front ++ (t :: as ++ back)) (front.length, front.length + 1)).length =
        if t.kind = .newline then 1 else 0 := by
      rw [breaksIn]
      by_cases ht : t.kind = .newline <;> simp [kindIs, ht]
    rw [hlength, hone, List.length_append, hfirst, List.cons_append, ih, breaks_cons, Nat.add_comm]

/-- Of indices in order, the second and the last enclose another one if two lie before it and one
does not. -/
theorem secondAndLast?_covers {as bs : List Nat} {i : Nat} (has : ∀ j ∈ as, j < i)
    (hbs : ∀ j ∈ bs, i ≤ j) :
    (secondAndLast? (as ++ bs)).any (covers i) = (decide (2 ≤ as.length) && !bs.isEmpty) := by
  rcases as with _ | ⟨first, _ | ⟨second, as⟩⟩
  · rcases bs with _ | ⟨first, _ | ⟨second, _ | ⟨third, bs⟩⟩⟩
    · rfl
    · rfl
    · rfl
    · have := hbs second (by simp)
      simp [secondAndLast?, covers, Nat.not_lt.mpr this]
  · rcases bs with _ | ⟨second, _ | ⟨third, bs⟩⟩
    · rfl
    · rfl
    · have := hbs second (by simp)
      simp [secondAndLast?, covers, Nat.not_lt.mpr this]
  · have hsecond : second < i := has second (by simp)
    cases hall : as ++ bs with
    | nil => simp_all [secondAndLast?]
    | cons third more =>
      have hlast : (third :: more).getLast (List.cons_ne_nil _ _) =
          (as ++ bs).getLast (by simp [hall]) := by simp only [hall]
      rw [List.cons_append, List.cons_append, hall, secondAndLast?, Option.any_some, covers, hlast]
      rcases List.eq_nil_or_concat bs with rfl | ⟨bs, last, rfl⟩
      · have hne : as ≠ [] := by
          rintro rfl
          cases hall
        have := has (as.getLast hne) (by simp [List.getLast_mem])
        simp [Nat.not_le.mpr this]
      · have := hbs last (by simp)
        simp [hsecond, this]

/-- What is in excess of a run are the tokens behind two line breaks up to the last one. -/
theorem excess?_covers (front as bs back : List Token) :
    (excess? (front ++ (as ++ bs ++ back))
      (front.length, front.length + (as ++ bs).length)).any (covers (front.length + as.length)) =
        (decide (2 ≤ breaks as) && decide (0 < breaks bs)) := by
  have hlength : front.length + (as ++ bs).length = front.length + as.length + bs.length := by
    rw [List.length_append]
    omega
  have hfirst := length_breaksIn front as (bs ++ back)
  have hsecond := length_breaksIn (front ++ as) bs back
  rw [List.length_append, List.append_assoc] at hsecond
  rw [excess?, List.append_assoc, hlength, breaksIn_append,
    @secondAndLast?_covers _ _ (front.length + as.length) (fun j hj => (mem_breaksIn hj).2)
      (fun j hj => (mem_breaksIn hj).1), hfirst, ← hsecond]
  cases breaksIn (front ++ (as ++ (bs ++ back)))
    (front.length + as.length, front.length + as.length + bs.length) <;> simp

theorem mem_of_secondAndLast? {l : List Nat} {p : Nat × Nat} (h : secondAndLast? l = some p) :
    p.1 ∈ l ∧ p.2 ∈ l := by
  unfold secondAndLast? at h
  split at h
  · rename_i first second third more
    cases h
    exact ⟨by simp, List.mem_cons_of_mem _ (List.mem_cons_of_mem _ (List.getLast_mem _))⟩
  · cases h

theorem bounds_of_covers {ts : List Token} {run : Nat × Nat} {i : Nat}
    (h : (excess? ts run).any (covers i)) : run.1 < i ∧ i < run.2 := by
  cases hp : excess? ts run with
  | none => simp [hp] at h
  | some p =>
    obtain ⟨hfirst, hlast⟩ := mem_of_secondAndLast? hp
    have hstart := (mem_breaksIn hfirst).1
    have hstop := (mem_breaksIn hlast).2
    simp only [hp, Option.any_some, covers, Bool.and_eq_true, decide_eq_true_eq] at h
    omega

/-- Where the indices of a run are covered as it asks, what stays of it is what is not marked. -/
theorem uncovered_run {dropped : List (Nat × Nat)} {n : Nat} {as : List Token} {r : Run}
    (h : ∀ bs cs, r.tokens = bs ++ cs → cs ≠ [] → dropped.any (covers (n + bs.length)) =
      (decide (2 ≤ breaks (as ++ bs)) && decide (0 < breaks cs))) :
    uncovered dropped (r.tokens.zipIdx n) = dropMarked (markLines (breaks as) r.tokens) := by
  obtain ⟨run, hrun⟩ := r
  induction run generalizing n as with
  | nil => rfl
  | cons t run ih =>
    have hfirst := h [] (t :: run) rfl (List.cons_ne_nil _ _)
    have ih := @ih (n + 1) (as ++ [t]) (fun u hu => hrun u (by simp [hu])) fun bs cs heq hne => by
      have := h (t :: bs) cs (congrArg _ heq) hne
      rw [List.length_cons] at this
      rw [List.append_assoc, List.singleton_append, Nat.add_assoc, Nat.add_comm 1, this]
    have hbreaks : breaks (as ++ [t]) = breaks as + if t.kind = .newline then 1 else 0 := by
      simp [breaks, List.countP_append, List.countP_singleton]
    rw [List.append_nil, List.length_nil, Nat.add_zero] at hfirst
    rw [markLines_cons _ hrun, dropMarked_cons, ← hbreaks, ← ih, ← hfirst, List.zipIdx_cons,
      uncovered_cons]

@[simp] theorem runsFrom_some (s n : Nat) (r : Run) (cs : List Cell) :
    runsFrom (some s) n (r.tokens ++ joinCells cs) =
      (s, n + r.tokens.length) :: runsFrom none (n + r.tokens.length) (joinCells cs) := by
  obtain ⟨run, hrun⟩ := r
  induction run generalizing n with
  | nil =>
    cases cs with
    | nil => rfl
    | cons c cs => simp [runsFrom, c.solid]
  | cons t run ih =>
    have ih := ih (n + 1) fun u hu => hrun u (by simp [hu])
    simp only [List.cons_append, runsFrom, hrun t (by simp), List.length_cons, if_true,
      Option.getD_some] at ih ⊢
    rw [ih, Nat.add_assoc, Nat.add_comm 1]

@[simp] theorem runsFrom_solid (n : Nat) (c : Cell) (ts : List Token) :
    runsFrom none n (c.token :: ts) = runsFrom none (n + 1) ts := by
  simp [runsFrom, c.solid]

/-- The run that begins at an index, if there is one. -/
def ownRun (n : Nat) (r : Run) : List (Nat × Nat) :=
  if r.tokens = [] then [] else [(n, n + r.tokens.length)]

/-- The runs of a list are those of its sheet. -/
@[simp] theorem runsFrom_none (n : Nat) (r : Run) (cs : List Cell) :
    runsFrom none n (r.tokens ++ joinCells cs) =
      ownRun n r ++ runsFrom none (n + r.tokens.length) (joinCells cs) := by
  obtain ⟨run, hrun⟩ := r
  cases run with
  | nil => rfl
  | cons t run =>
    have hrest := runsFrom_some n (n + 1) ⟨run, fun u hu => hrun u (by simp [hu])⟩ cs
    simp only [List.cons_append, runsFrom, hrun t (by simp), List.length_cons, if_true,
      Option.getD_none] at hrest ⊢
    rw [hrest, ownRun, if_neg (List.cons_ne_nil _ _), List.length_cons, Nat.add_assoc,
      Nat.add_comm 1]
    rfl

theorem any_covers_eq_false {ts us : List Token} {n i : Nat} (h : i < n) :
    ((runsFrom none n us).filterMap (excess? ts)).any (covers i) = false := by
  rw [List.any_eq_false]
  intro p hp hcovers
  obtain ⟨run, hrun, hp⟩ := List.mem_filterMap.mp hp
  have hn := (bounds_of_runsFrom hrun).1
  have := (bounds_of_covers (show (excess? ts run).any (covers i) by simp [hp, hcovers])).1
  simp at hn
  omega

/-- What is in excess of a run covers nothing outside it. -/
theorem any_covers_ownRun {ts : List Token} {n i : Nat} {r : Run}
    (h : n + r.tokens.length ≤ i) :
    ((ownRun n r).filterMap (excess? ts)).any (covers i) = false := by
  rw [ownRun]
  split
  · rfl
  · by_contra hany
    have hbounds := @bounds_of_covers ts (n, n + r.tokens.length) i (by
      cases hp : excess? ts (n, n + r.tokens.length) <;> simp_all)
    exact absurd hbounds.2 (Nat.not_lt.mpr h)

section
variable {ts front : List Token} {r : Run} {other : List (Nat × Nat)}
  (hother : ∀ i, front.length ≤ i → other.any (covers i) = false)
include hother

/-- Of a run those tokens stay that are not marked, whatever is covered elsewhere. -/
theorem uncovered_ownRun {back : List Token} {more : List (Nat × Nat)}
    (hts : ts = front ++ (r.tokens ++ back))
    (hmore : ∀ i < front.length + r.tokens.length, more.any (covers i) = false) :
    uncovered (other ++ (ownRun front.length r).filterMap (excess? ts) ++ more)
      (r.tokens.zipIdx front.length) = dropMarked (markLines 0 r.tokens) := by
  refine @uncovered_run _ _ [] r fun bs cs hr hne => ?_
  have hpos := List.length_pos_iff.mpr hne
  have hcovers := excess?_covers front bs cs back
  rw [← hr, ← hts] at hcovers
  rw [List.any_append, List.any_append, hother _ (Nat.le_add_right ..),
    hmore _ (by rw [hr, List.length_append]; omega), ownRun, if_neg (by simp [hr, hne])]
  cases hp : excess? ts (front.length, front.length + r.tokens.length) <;> simp_all

/-- Dropping what is in excess of each run drops what is marked. The pairs in `other` belong to
the runs in front. -/
theorem uncovered_eq {cs : List Cell} (hts : ts = front ++ (r.tokens ++ joinCells cs)) :
    uncovered (other ++ (runsFrom none front.length (r.tokens ++ joinCells cs)).filterMap
        (excess? ts)) ((r.tokens ++ joinCells cs).zipIdx front.length) =
      dropMarked (markLines 0 (r.tokens ++ joinCells cs)) := by
  induction cs generalizing front r other with
  | nil =>
    have hlead := @uncovered_ownRun ts front r other hother [] [] hts fun _ _ => rfl
    rw [runsFrom_none]
    simpa [runsFrom] using hlead
  | cons c cs ih =>
    let n := front.length + r.tokens.length
    let own := (ownRun front.length r).filterMap (excess? ts)
    let more := (runsFrom none (n + 1) (c.run.tokens ++ joinCells cs)).filterMap (excess? ts)
    have hmore (i : Nat) (hi : i < n + 1) : more.any (covers i) = false := any_covers_eq_false hi
    have hown (i : Nat) (hi : n ≤ i) : (other ++ own).any (covers i) = false := by
      rw [List.any_append, hother i (Nat.le_of_add_right_le hi), any_covers_ownRun hi]
      rfl
    have hlead : uncovered (other ++ own ++ more) (r.tokens.zipIdx front.length) =
        dropMarked (markLines 0 r.tokens) :=
      uncovered_ownRun hother hts fun i hi => hmore i (Nat.lt_succ_of_lt hi)
    have htoken : (other ++ own ++ more).any (covers n) = false := by
      rw [List.any_append, hown n (Nat.le_refl n), hmore n (Nat.lt_succ_self n)]
      rfl
    have hlength : (front ++ r.tokens ++ [c.token]).length = n + 1 := by
      simp [n, Nat.add_assoc]
    have hrest := @ih (front ++ r.tokens ++ [c.token]) c.run (other ++ own)
      (fun i hi => hown i (by omega)) (by simp [hts])
    rw [hlength] at hrest
    rw [markLines_append, dropMarked_append, joinCells_cons, markLines_solid, dropMarked_cons,
      ← joinCells_cons, runsFrom_none, List.filterMap_append, joinCells_cons, runsFrom_solid,
      ← List.append_assoc, List.zipIdx_append, uncovered_append, List.zipIdx_cons, uncovered_cons]
    exact congrArg₂ (· ++ ·) hlead (by rw [if_neg (by rw [htoken]; simp)]; exact congrArg _ hrest)

end

theorem fixLinesChecked_eq (s : Sheet) : fixLinesChecked s.tokens = .ok (fixLines s.tokens) := by
  have hruns : (runsFrom none 0 s.tokens).filterMapM (excessChecked s.tokens) =
      .ok ((runsFrom none 0 s.tokens).filterMap (excess? s.tokens)) :=
    filterMapM_eq_ok fun run hrun => excessChecked_eq (by simpa using (bounds_of_runsFrom hrun).2)
  rw [fixLinesChecked, hruns, ok_bind, fixLines]
  exact congrArg Except.ok (@uncovered_eq _ [] s.lead [] (fun _ _ => rfl) s.cells rfl)

end Blank
end LetScript
