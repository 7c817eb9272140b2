import LetScript.Json.Basic
import LetScript.Text.Character

/-! Reading JSON text. The grammar is taken strictly: no comments, no trailing
commas, no bare control characters in strings, and nothing but blanks around
the value. A string can escape half of a surrogate pair. It is then a valid
string that stands for no text, and is read as `none`. -/
namespace LetScript
namespace Json

def isBlank (c : Char) : Bool := c == ' ' || c == '\t' || c == '\n' || c == '\r'

def skipBlanks (cs : List Char) : List Char := cs.dropWhile isBlank

theorem length_skipBlanks_le (cs : List Char) : (skipBlanks cs).length ≤ cs.length :=
  (List.dropWhile_sublist _).length_le

/-- A list of characters shorter than the given one. -/
abbrev Remaining (cs : List Char) : Type := { rest : List Char // rest.length < cs.length }

def hexDigit? (c : Char) : Option Nat :=
  if '0' ≤ c ∧ c ≤ '9' then some (c.toNat - '0'.toNat)
  else if 'a' ≤ c ∧ c ≤ 'f' then some (c.toNat - 'a'.toNat + 10)
  else if 'A' ≤ c ∧ c ≤ 'F' then some (c.toNat - 'A'.toNat + 10)
  else none

def escaped? : Char → Option Char
  | '\x22' => some '\x22'
  | '\\' => some '\\'
  | '/' => some '/'
  | 'b' => some '\x08'
  | 'f' => some '\x0c'
  | 'n' => some '\n'
  | 'r' => some '\r'
  | 't' => some '\t'
  | _ => none

/-- The code points of a string after its opening quote, halves of surrogate
pairs each on its own, and the text after the closing quote. -/
def readCodes : List Char → Option (List Nat × List Char)
  | [] => none
  | '\x22' :: rest => some ([], rest)
  | '\\' :: 'u' :: a :: b :: c :: d :: rest => do
    let code := (((← hexDigit? a) * 16 + (← hexDigit? b)) * 16 + (← hexDigit? c)) * 16
      + (← hexDigit? d)
    let (codes, rest) ← readCodes rest
    return (code :: codes, rest)
  | '\\' :: c :: rest => do
    let e ← escaped? c
    let (codes, rest) ← readCodes rest
    return (e.toNat :: codes, rest)
  | c :: rest => do
    if c = '\\' ∨ c.toNat < 0x20 then none
    else
      let (codes, rest) ← readCodes rest
      return (c.toNat :: codes, rest)

theorem readCodes_length {cs rest : List Char} {codes : List Nat}
    (h : readCodes cs = some (codes, rest)) : rest.length < cs.length := by
  fun_induction readCodes cs generalizing codes rest with
  | case1 => simp at h
  | case2 => simp_all
  | case3 a b c d more ih =>
    simp only [Option.bind_eq_bind, Option.bind_eq_some_iff, Option.pure_def] at h
    obtain ⟨_, _, _, _, _, _, _, _, ⟨_, _⟩, hr, he⟩ := h
    have := ih hr
    cases he
    simp only [List.length_cons]
    omega
  | case4 c more _ ih =>
    simp only [Option.bind_eq_bind, Option.bind_eq_some_iff, Option.pure_def] at h
    obtain ⟨_, _, ⟨_, _⟩, hr, he⟩ := h
    have := ih hr
    cases he
    simp only [List.length_cons]
    omega
  | case5 => simp at h
  | case6 c more _ _ _ _ ih =>
    simp only [Option.bind_eq_bind, Option.bind_eq_some_iff, Option.pure_def] at h
    obtain ⟨⟨_, _⟩, hr, he⟩ := h
    have := ih hr
    cases he
    simp only [List.length_cons]
    omega

def isHighHalf (n : Nat) : Bool := 0xd800 ≤ n && n < 0xdc00

def isLowHalf (n : Nat) : Bool := 0xdc00 ≤ n && n < 0xe000

/-- The text of a list of code points, in which halves of surrogate pairs must
stand in pairs. -/
def joinPairs : List Nat → Option (List Char)
  | [] => some []
  | [n] => if isHighHalf n || isLowHalf n then none else some [Char.ofNat n]
  | n :: m :: rest =>
    if isHighHalf n then
      if isLowHalf m then
        (joinPairs rest).map (Char.ofNat (0x10000 + (n - 0xd800) * 0x400 + (m - 0xdc00)) :: ·)
      else none
    else if isLowHalf n then none
    else (joinPairs (m :: rest)).map (Char.ofNat n :: ·)

def readString (cs : List Char) : Option (Option String × Remaining cs) :=
  match _h : readCodes cs with
  | none => none
  | some (codes, rest) => some ((joinPairs codes).map String.ofList, ⟨rest, readCodes_length _h⟩)

def takeDigits (cs : List Char) : Option (List Char × List Char) :=
  let ds := cs.takeWhile Char.isDigit
  if ds = [] then none else some (ds, cs.dropWhile Char.isDigit)

theorem takeDigits_append {cs ds rest : List Char} (h : takeDigits cs = some (ds, rest)) :
    ds ≠ [] ∧ ds ++ rest = cs := by
  simp only [takeDigits] at h
  split at h
  · simp at h
  · rename_i hd
    cases h
    exact ⟨hd, List.takeWhile_append_dropWhile⟩

/-- The whole part of a number: a zero, or digits that do not begin with one. -/
def takeWhole (cs : List Char) : Option (List Char × List Char) :=
  match cs with
  | '0' :: rest => some (['0'], rest)
  | _ => takeDigits cs

theorem takeWhole_append {cs ds rest : List Char} (h : takeWhole cs = some (ds, rest)) :
    ds ≠ [] ∧ ds ++ rest = cs := by
  unfold takeWhole at h
  split at h
  · cases h
    simp
  · exact takeDigits_append h

def takeFraction (cs : List Char) : Option (List Char × List Char) :=
  match cs with
  | '.' :: rest => (takeDigits rest).map fun r => ('.' :: r.1, r.2)
  | _ => some ([], cs)

theorem takeFraction_append {cs ds rest : List Char} (h : takeFraction cs = some (ds, rest)) :
    ds ++ rest = cs := by
  unfold takeFraction at h
  split at h
  · obtain ⟨⟨es, r⟩, hd, he⟩ := Option.map_eq_some_iff.mp h
    obtain ⟨rfl, rfl⟩ := Prod.mk.inj he
    simp [(takeDigits_append hd).2]
  · cases h
    rfl

def takeExponent (cs : List Char) : Option (List Char × List Char) :=
  match cs with
  | [] => some ([], [])
  | c :: rest =>
    if c = 'e' ∨ c = 'E' then
      match rest with
      | [] => none
      | s :: more =>
        if s = '+' ∨ s = '-' then (takeDigits more).map fun r => (c :: s :: r.1, r.2)
        else (takeDigits (s :: more)).map fun r => (c :: r.1, r.2)
    else some ([], c :: rest)

theorem takeExponent_append {cs ds rest : List Char} (h : takeExponent cs = some (ds, rest)) :
    ds ++ rest = cs := by
  cases cs with
  | nil =>
    cases h
    rfl
  | cons c cs =>
    simp only [takeExponent] at h
    split at h
    · split at h
      · simp at h
      · split at h
        · obtain ⟨⟨es, r⟩, hd, he⟩ := Option.map_eq_some_iff.mp h
          obtain ⟨rfl, rfl⟩ := Prod.mk.inj he
          simp [(takeDigits_append hd).2]
        · obtain ⟨⟨es, r⟩, hd, he⟩ := Option.map_eq_some_iff.mp h
          obtain ⟨rfl, rfl⟩ := Prod.mk.inj he
          simp [(takeDigits_append hd).2]
    · cases h
      rfl

def takeUnsigned (cs : List Char) : Option (List Char × List Char) :=
  (takeWhole cs).bind fun w =>
    (takeFraction w.2).bind fun f =>
      (takeExponent f.2).map fun e => (w.1 ++ f.1 ++ e.1, e.2)

theorem takeUnsigned_append {cs ds rest : List Char} (h : takeUnsigned cs = some (ds, rest)) :
    ds ≠ [] ∧ ds ++ rest = cs := by
  simp only [takeUnsigned, Option.bind_eq_some_iff, Option.map_eq_some_iff, Prod.mk.injEq] at h
  obtain ⟨⟨w, r⟩, hw, ⟨f, r'⟩, hf, ⟨e, r''⟩, he, rfl, rfl⟩ := h
  have hw := takeWhole_append hw
  have hf := takeFraction_append hf
  have he := takeExponent_append he
  refine ⟨by simp [hw.1], ?_⟩
  rw [List.append_assoc, List.append_assoc, he, hf, hw.2]

def takeNumber : List Char → Option (List Char × List Char)
  | '-' :: cs => (takeUnsigned cs).map fun r => ('-' :: r.1, r.2)
  | cs => takeUnsigned cs

theorem takeNumber_append {cs ds rest : List Char} (h : takeNumber cs = some (ds, rest)) :
    ds ≠ [] ∧ ds ++ rest = cs := by
  unfold takeNumber at h
  split at h
  · obtain ⟨⟨es, r⟩, hd, he⟩ := Option.map_eq_some_iff.mp h
    obtain ⟨rfl, rfl⟩ := Prod.mk.inj he
    simp [(takeUnsigned_append hd).2]
  · exact takeUnsigned_append h

theorem length_lt_of_append {cs ds rest : List Char} (h : ds ≠ [] ∧ ds ++ rest = cs) :
    rest.length < cs.length := by
  have hp := List.length_pos_iff.mpr h.1
  rw [← h.2, List.length_append]
  omega

def readNumber (cs : List Char) : Option (Json (Option String) × Remaining cs) :=
  match _h : takeNumber cs with
  | none => none
  | some (literal, rest) =>
    some (.number (String.ofList literal), ⟨rest, length_lt_of_append (takeNumber_append _h)⟩)

/-- A fixed word as a value. The first letter of the word is known already. -/
def readWord (c : Char) (word : String) (v : Json (Option String)) (cs : List Char) :
    Option (Json (Option String) × Remaining (c :: cs)) :=
  match _h : afterText? word.toList cs with
  | none => none
  | some rest => some (v, ⟨rest, by
      rw [← afterText?_eq_some _h, List.length_cons, List.length_append]
      omega⟩)

mutual

def readValue (cs : List Char) : Option (Json (Option String) × Remaining cs) :=
  match cs with
  | [] => none
  | '\x22' :: more =>
    (readString more).map fun r => (.text r.1, ⟨r.2.1, by have := r.2.2; simp; omega⟩)
  | '[' :: more =>
    match _h : skipBlanks more with
    | ']' :: rest =>
      some (.array [], ⟨rest, by
        have := length_skipBlanks_le more; rw [_h] at this; simp at this ⊢; omega⟩)
    | _ =>
      (readItems (skipBlanks more)).map fun r => (.array r.1, ⟨r.2.1, by
        have := r.2.2; have := length_skipBlanks_le more; simp; omega⟩)
  | '\x7b' :: more =>
    match _h : skipBlanks more with
    | '\x7d' :: rest =>
      some (.object [], ⟨rest, by
        have := length_skipBlanks_le more; rw [_h] at this; simp at this ⊢; omega⟩)
    | _ =>
      (readFields (skipBlanks more)).map fun r => (.object r.1, ⟨r.2.1, by
        have := r.2.2; have := length_skipBlanks_le more; simp; omega⟩)
  | 'n' :: more => readWord 'n' "ull" .null more
  | 't' :: more => readWord 't' "rue" (.bool true) more
  | 'f' :: more => readWord 'f' "alse" (.bool false) more
  | c :: more => readNumber (c :: more)
termination_by 2 * cs.length
decreasing_by
  all_goals have := length_skipBlanks_le more
  all_goals simp only [List.length_cons]
  all_goals omega

def readItems (cs : List Char) : Option (List (Json (Option String)) × Remaining cs) :=
  match readValue cs with
  | none => none
  | some (v, r) =>
    match _h : skipBlanks r.1 with
    | ',' :: more =>
      (readItems (skipBlanks more)).map fun s => (v :: s.1, ⟨s.2.1, by
        have := r.2; have := s.2.2; have := length_skipBlanks_le more
        have hr := length_skipBlanks_le r.1; rw [_h] at hr; simp at hr; omega⟩)
    | ']' :: more =>
      some ([v], ⟨more, by
        have := r.2; have hr := length_skipBlanks_le r.1; rw [_h] at hr; simp at hr; omega⟩)
    | _ => none
termination_by 2 * cs.length + 1
decreasing_by
  · omega
  · have := r.2
    have := length_skipBlanks_le more
    have hr := length_skipBlanks_le r.1
    rw [_h] at hr
    simp at hr
    omega

def readFields (cs : List Char) :
    Option (List (Option String × Json (Option String)) × Remaining cs) :=
  match cs with
  | '\x22' :: more =>
    match readString more with
    | none => none
    | some (k, r) =>
      match _hc : skipBlanks r.1 with
      | ':' :: afterColon =>
        match readValue (skipBlanks afterColon) with
        | none => none
        | some (v, s) =>
          match _h : skipBlanks s.1 with
          | ',' :: next =>
            (readFields (skipBlanks next)).map fun u => ((k, v) :: u.1, ⟨u.2.1, by
              have := r.2; have := s.2; have := u.2.2
              have hr := length_skipBlanks_le r.1; rw [_hc] at hr
              have hs := length_skipBlanks_le s.1; rw [_h] at hs
              have := length_skipBlanks_le afterColon
              have := length_skipBlanks_le next
              simp at hr hs ⊢; omega⟩)
          | '\x7d' :: rest =>
            some ([(k, v)], ⟨rest, by
              have := r.2; have := s.2
              have hr := length_skipBlanks_le r.1; rw [_hc] at hr
              have hs := length_skipBlanks_le s.1; rw [_h] at hs
              have := length_skipBlanks_le afterColon
              simp at hr hs ⊢; omega⟩)
          | _ => none
      | _ => none
  | _ => none
termination_by 2 * cs.length + 1
decreasing_by
  · have := r.2
    have hr := length_skipBlanks_le r.1
    rw [_hc] at hr
    have := length_skipBlanks_le afterColon
    simp at hr ⊢
    omega
  · have := r.2
    have := s.2
    have hr := length_skipBlanks_le r.1
    rw [_hc] at hr
    have hs := length_skipBlanks_le s.1
    rw [_h] at hs
    have := length_skipBlanks_le afterColon
    have := length_skipBlanks_le next
    simp at hr hs ⊢
    omega

end

def ofText? (s : String) : Option (Json (Option String)) :=
  match readValue (skipBlanks s.toList) with
  | some (v, rest) => if skipBlanks rest.1 = [] then some v else none
  | none => none

end Json
end LetScript
