import LetScript.Proofs.Line

/-! Tokens by index. Brackets are searched and lines are cut once more, here with indices into the
list of tokens, and each index, range and count is checked before it is used. No check fails, and
the outcome is the same. -/
namespace LetScript

/-- What a check refuses: an index that is not in the list, a range that is not in the list, a
count that falls below zero, and a recursive call that gets no further. -/
inductive Breach where
  | index (i : Nat)
  | range (i j : Nat)
  | count
  | stalled
deriving DecidableEq, Repr

inductive Bracket where
  | paren
  | brace
deriving DecidableEq, Repr

namespace Bracket

def opening : Bracket → Kind
  | paren => .openParen
  | brace => .openBrace

def closing : Bracket → Kind
  | paren => .closeParen
  | brace => .closeBrace

theorem opening_ne_closing (b : Bracket) : b.opening ≠ b.closing := by cases b <;> decide

end Bracket

namespace Guarded

/-! ### Checked access -/

def tokenAt (ts : List Token) (i : Nat) : Except Breach Token :=
  match ts[i]? with
  | some t => .ok t
  | none => .error (.index i)

/-- The tokens from the index `i` up to but without the index `j`. -/
def part (ts : List Token) (i j : Nat) : List Token := (ts.drop i).take (j - i)

def slice (ts : List Token) (i j : Nat) : Except Breach (List Token) :=
  if i ≤ j ∧ j ≤ ts.length then .ok (part ts i j) else .error (.range i j)

/-- One less than a count. -/
def lessOne : Nat → Except Breach Nat
  | 0 => .error .count
  | n + 1 => .ok n

section
variable {ts more : List Token} {t : Token} {i j : Nat}

theorem getElem?_of_drop (h : ts.drop i = t :: more) : ts[i]? = some t := by
  rw [← List.head?_drop, h]
  rfl

theorem lt_length_of_drop (h : ts.drop i = t :: more) : i < ts.length := by
  have := congrArg List.length h
  simp only [List.length_drop, List.length_cons] at this
  omega

theorem drop_succ_of_drop (h : ts.drop i = t :: more) : ts.drop (i + 1) = more := by
  rw [← List.tail_drop, h]
  rfl

theorem tokenAt_of_drop (h : ts.drop i = t :: more) : tokenAt ts i = .ok t := by
  rw [tokenAt, getElem?_of_drop h]

@[simp] theorem part_self (ts : List Token) (i : Nat) : part ts i i = [] := by
  rw [part, Nat.sub_self, List.take_zero]

theorem take_eq_part (hij : i ≤ j) : ts.take j = ts.take i ++ part ts i j := by
  rw [part, ← List.take_add, Nat.add_sub_cancel' hij]

theorem part_succ (h : ts.drop j = t :: more) (hij : i ≤ j) :
    part ts i (j + 1) = part ts i j ++ [t] := by
  have ht : (ts.drop i)[j - i]? = some t := by
    rw [List.getElem?_drop, Nat.add_sub_cancel' hij, getElem?_of_drop h]
  rw [part, part, Nat.succ_sub hij, List.take_add_one, ht]
  rfl

theorem part_of_drop {inside rest : List Token} (h : ts.drop i = inside ++ rest) :
    part ts i (i + inside.length) = inside := by
  rw [part, h, Nat.add_sub_cancel_left, List.take_left]

theorem drop_of_append {inside rest : List Token} (h : ts.drop i = inside ++ rest) :
    ts.drop (i + inside.length) = rest := by
  rw [← List.drop_drop, h, List.drop_left]

theorem slice_of_le (hij : i ≤ j) (hj : j ≤ ts.length) : slice ts i j = .ok (part ts i j) :=
  if_pos ⟨hij, hj⟩

theorem slice_length (hi : i ≤ ts.length) : slice ts i ts.length = .ok (ts.drop i) := by
  rw [slice_of_le hi (Nat.le_refl _), part, ← List.length_drop, List.take_length]

theorem slice_of_drop {inside rest : List Token} (h : ts.drop i = inside ++ rest)
    (hi : i ≤ ts.length) : slice ts i (i + inside.length) = .ok inside := by
  have hlen := congrArg List.length h
  simp only [List.length_drop, List.length_append] at hlen
  rw [slice_of_le (by omega) (by omega), part_of_drop h]

end

/-! ### Brackets -/

/-- Look for the bracket that closes what stands open, with `depth` brackets open before the
index `i`. -/
def closeFrom (opening closing : Kind) : Nat → Nat → List Token → Except Breach (Option Nat)
  | _, _, [] => .ok none
  | i, depth, t :: ts =>
    if t.kind = opening then closeFrom opening closing (i + 1) (depth + 1) ts
    else if t.kind = closing then do
      let depth ← lessOne depth
      if depth = 0 then return some i
      else closeFrom opening closing (i + 1) depth ts
    else closeFrom opening closing (i + 1) depth ts

/-- The index of the bracket that closes the one at the index `i`. -/
def matchingClose (ts : List Token) (i : Nat) : Except Breach (Option Nat) :=
  match ts[i]? with
  | none => .ok none
  | some t =>
    match t.kind with
    | .openParen => closeFrom .openParen .closeParen i 0 (ts.drop i)
    | .openBrace => closeFrom .openBrace .closeBrace i 0 (ts.drop i)
    | _ => .ok none

/-- Once a bracket is open, the count stays above zero until that bracket is closed. -/
theorem closeFrom_eq (opening closing : Kind) (i d : Nat) (ts : List Token) :
    closeFrom opening closing i (d + 1) ts =
      .ok ((cutAtClose opening closing d ts).map fun r => i + r.1.length) := by
  induction ts generalizing i d with
  | nil => rfl
  | cons t ts ih =>
    have further (r : Option (List Token × List Token)) :
        r.map (fun r => i + 1 + r.1.length) =
          (r.map fun r => (t :: r.1, r.2)).map fun r => i + r.1.length := by
      rw [Option.map_map]
      congr 1
      funext r
      simp only [Function.comp, List.length_cons]
      omega
    simp only [closeFrom, cutAtClose]
    split
    · rw [ih, further]
    · split
      · cases d with
        | zero => rfl
        | succ d =>
          simp only [lessOne, ok_bind, Nat.succ_ne_zero, if_false]
          rw [ih, further]
      · rw [ih, further]

theorem matchingClose_of_drop (b : Bracket) {ts more : List Token} {t : Token} {i : Nat}
    (h : ts.drop i = t :: more) (ht : t.kind = b.opening) :
    matchingClose ts i =
      .ok ((cutAtClose b.opening b.closing 0 more).map fun r => i + 1 + r.1.length) := by
  have hopen : matchingClose ts i = closeFrom b.opening b.closing i 0 (ts.drop i) := by
    cases b <;> simp only [matchingClose, getElem?_of_drop h, ht, Bracket.opening, Bracket.closing]
  rw [hopen, h, closeFrom, if_pos ht, closeFrom_eq]

/-! ### Lines -/

/-- Whether the line that begins at the index `start` is a conditional that ends at the index
`i`, where no brace is left open. -/
def endsBranch (ts : List Token) (start i : Nat) : Except Breach Bool := do
  let first ← tokenAt ts start
  return first.kind = .ifWord && !ts[i + 1]?.any (fun t => t.kind = .elseWord)

/-- Cut what is left of the tokens at the index `i` into lines, with `depth` braces open and the
line so far from the index `start` on. -/
def splitFrom (ts : List Token) (start depth i : Nat) :
    List Token → Except Breach (List (List Token) × Option SyntaxError)
  | [] => do
    if 0 < depth then return ([], some (.of .unbalancedBraces (← tokenAt ts start).position))
    else if start < ts.length then return ([], some (.of .missingTerminator (endPosition ts)))
    else return ([], none)
  | t :: rest =>
    match t.kind with
    | .openBrace => splitFrom ts start (depth + 1) (i + 1) rest
    | .closeBrace => do
      if depth = 0 then return ([], some (.of .unbalancedBraces t.position))
      else
        let depth ← lessOne depth
        if depth = 0 then
          if ← endsBranch ts start i then
            let line ← slice ts start (i + 1)
            let (lines, fault) ← splitFrom ts (i + 1) depth (i + 1) rest
            return (line :: lines, fault)
          else splitFrom ts start depth (i + 1) rest
        else splitFrom ts start depth (i + 1) rest
    | .semicolon => do
      if depth = 0 then
        if start < i then
          let line ← slice ts start i
          let (lines, fault) ← splitFrom ts (i + 1) depth (i + 1) rest
          return (line :: lines, fault)
        else splitFrom ts (i + 1) depth (i + 1) rest
      else splitFrom ts start depth (i + 1) rest
    | _ => splitFrom ts start depth (i + 1) rest

def splitLines (ts : List Token) : Except Breach (List (List Token) × Option SyntaxError) :=
  splitFrom ts 0 0 0 ts

end Guarded

/-- The lines of a cut as lists of tokens. -/
def Cut.plain (c : Cut) : List (List Token) × Option SyntaxError := (c.lines.map Line.tokens, c.fault)

@[simp] theorem Cut.plain_cons (l : Line) (c : Cut) :
    (c.cons l).plain = (l.tokens :: c.plain.1, c.plain.2) := rfl

namespace Guarded

section
variable {ts : List Token} {start i : Nat}

/-- A line that has begun has a first token. -/
theorem part_eq_cons (hstart : start < i) (hi : i ≤ ts.length) :
    ∃ f r, part ts start i = f :: r ∧ tokenAt ts start = .ok f := by
  obtain ⟨f, more, hdrop⟩ : ∃ f more, ts.drop start = f :: more :=
    ⟨_, _, List.drop_eq_getElem_cons (Nat.lt_of_lt_of_le hstart hi)⟩
  obtain ⟨n, hn⟩ := Nat.exists_eq_add_of_lt hstart
  refine ⟨f, more.take n, ?_, tokenAt_of_drop hdrop⟩
  rw [part, hdrop, show i - start = n + 1 by omega, List.take_succ_cons]

theorem part_of_nil (start : Nat) (hrest : ts.drop i = []) (hi : i ≤ ts.length) :
    part ts start i = ts.drop start ∧ i = ts.length := by
  have hlen : i = ts.length := Nat.le_antisymm hi (List.drop_eq_nil_iff.mp hrest)
  refine ⟨?_, hlen⟩
  rw [part, hlen, ← List.length_drop, List.take_length]

theorem endPosition_drop (h : start < ts.length) : endPosition (ts.drop start) = endPosition ts := by
  rw [endPosition, endPosition, List.getLast?_drop, if_neg (Nat.not_le.mpr h)]

theorem endsBranch_eq {f : Token} {rest : List Token} (hfirst : tokenAt ts start = .ok f)
    (hrest : ts.drop (i + 1) = rest) :
    endsBranch ts start i = .ok (f.kind = .ifWord && !elseFollows rest) := by
  have helse : ts[i + 1]?.any (fun t => t.kind = .elseWord) = elseFollows rest := by
    rw [← List.head?_drop, hrest]
    cases rest <;> rfl
  rw [endsBranch, hfirst, helse]
  rfl

end

theorem splitFrom_nil {ts : List Token} {start depth i : Nat} (hrest : ts.drop i = [])
    (hi : i ≤ ts.length) (hdepth : 0 < depth → start < i) :
    splitFrom ts start depth i [] = .ok (cutFrom depth (part ts start i) []).plain := by
  obtain ⟨hpart, hlen⟩ := part_of_nil start hrest hi
  cases depth with
  | zero =>
    by_cases hlt : start < ts.length
    · obtain ⟨f, r, hcons, -⟩ := part_eq_cons (hlen ▸ hlt) hi
      have hend : endPosition (f :: r) = endPosition ts := by
        rw [← hcons, hpart, endPosition_drop hlt]
      simp [splitFrom, cutFrom, hlt, hcons, hend, Cut.plain]
    · have hnil : part ts start i = [] := by rw [hpart, List.drop_eq_nil_iff]; omega
      simp [splitFrom, cutFrom, hlt, hnil, Cut.plain]
  | succ d =>
    obtain ⟨f, r, hcons, hfirst⟩ := part_eq_cons (hdepth d.succ_pos) hi
    simp [splitFrom, cutFrom, hcons, hfirst, Cut.plain]

/-- Braces are only open in a line that has begun. -/
theorem splitFrom_eq {ts rest : List Token} {start depth i : Nat} (hrest : ts.drop i = rest)
    (hi : i ≤ ts.length) (hstart : start ≤ i) (hdepth : 0 < depth → start < i) :
    splitFrom ts start depth i rest = .ok (cutFrom depth (part ts start i) rest).plain := by
  induction rest generalizing start depth i with
  | nil => exact splitFrom_nil hrest hi hdepth
  | cons t rest ih =>
    have hnext := drop_succ_of_drop hrest
    have hlt := lt_length_of_drop hrest
    have hjoin := part_succ hrest hstart
    have join (d : Nat) : splitFrom ts start d (i + 1) rest =
        .ok (cutFrom d (part ts start i ++ [t]) rest).plain := by
      rw [← hjoin]
      exact ih hnext hlt (by omega) (by omega)
    have fresh : splitFrom ts (i + 1) 0 (i + 1) rest = .ok (cutFrom 0 [] rest).plain := by
      rw [← part_self ts (i + 1)]
      exact ih hnext hlt (Nat.le_refl _) (by omega)
    cases hk : t.kind with
    | openBrace => simp only [splitFrom, cutFrom, hk, join]
    | closeBrace =>
      rcases depth with _ | _ | d
      · simp [splitFrom, cutFrom, hk, Cut.plain]
      · obtain ⟨f, r, hcons, hfirst⟩ := part_eq_cons (hdepth Nat.one_pos) hi
        have hline : slice ts start (i + 1) = .ok (f :: (r ++ [t])) := by
          rw [slice_of_le (by omega) hlt, hjoin, hcons]
          rfl
        rw [hcons] at join
        by_cases hif : f.kind = .ifWord ∧ elseFollows rest = false
        · simp [splitFrom, cutFrom, hk, lessOne, endsBranch_eq hfirst hnext, hline, fresh, hcons,
            hif, Line.tokens]
        · have hends : (f.kind = .ifWord && !elseFollows rest) = false := by simpa using hif
          simp [splitFrom, cutFrom, hk, lessOne, endsBranch_eq hfirst hnext, hends, join, hcons,
            hif]
      · simp [splitFrom, cutFrom, hk, lessOne, join]
    | semicolon =>
      cases depth with
      | zero =>
        by_cases hbegun : start < i
        · obtain ⟨f, r, hcons, -⟩ := part_eq_cons hbegun hi
          have hline : slice ts start i = .ok (f :: r) := by rw [slice_of_le hstart hi, hcons]
          simp [splitFrom, cutFrom, hk, hbegun, hline, fresh, hcons, Line.tokens]
        · obtain rfl : start = i := by omega
          simp [splitFrom, cutFrom, hk, fresh]
      | succ d => simp [splitFrom, cutFrom, hk, join]
    | _ => simp only [splitFrom, cutFrom, hk, join]

theorem splitLines_eq (ts : List Token) : splitLines ts = .ok (cutLines ts).plain :=
  splitFrom_eq rfl (Nat.zero_le _) (Nat.le_refl 0) (by omega)

end Guarded
end LetScript
