import LetScript.Number

/-! Printing a number and reading it back. A finite number is a whole number of
units, its expansion is that number of units in decimal places, and rounding a
multiple of the unit changes nothing. -/
namespace LetScript
namespace Binary64

theorem magnitude_ofMagnitude {m : Nat} (h : m < Nat.pow 2 63) :
    (ofMagnitude m).magnitude = m := by
  have hsmall : m < 2 ^ 64 := Nat.lt_trans h (by decide)
  simp only [magnitude, ofMagnitude, UInt64.toNat_ofNat', Nat.mod_eq_of_lt hsmall,
    Nat.mod_eq_of_lt h]

theorem abs_of_isNegative_eq_false {x : Binary64} (h : x.isNegative = false) : x.abs = x := by
  have hlt : x.bits.toNat < Nat.pow 2 63 := by simpa [isNegative] using h
  simp only [abs, ofMagnitude, magnitude, Nat.mod_eq_of_lt hlt, UInt64.ofNat_toNat]

theorem isNegative_ofMagnitude {m : Nat} (h : m < Nat.pow 2 63) :
    (ofMagnitude m).isNegative = false := by
  have hsmall : m < 2 ^ 64 := Nat.lt_trans h (by decide)
  simp only [isNegative, ofMagnitude, UInt64.toNat_ofNat', Nat.mod_eq_of_lt hsmall]
  simpa using h

theorem roundHalfEven_mul {n d k : Nat} (hk : 0 < k) :
    roundHalfEven (n * k) (d * k) = roundHalfEven n d := by
  have hlt (a b : Nat) : a * k < b * k ↔ a < b := Nat.mul_lt_mul_right hk
  simp only [roundHalfEven, Nat.mul_div_mul_right _ _ hk, Nat.mul_mod_mul_right, ← Nat.mul_assoc,
    hlt]

theorem roundHalfEven_of_dvd {m d : Nat} (hd : 0 < d) : roundHalfEven (m * d) d = m := by
  simp [roundHalfEven, hd]

/-- A quotient may be reduced. -/
theorem ofRatio_mul {n d k : Nat} (hk : 0 < k) : ofRatio (n * k) (d * k) = ofRatio n d := by
  simp only [ofRatio, Nat.mul_right_comm _ k, Nat.mul_div_mul_right _ _ hk, roundHalfEven_mul hk]

/-- A significand below a leading one, after `e` doublings, needs no rounding. -/
theorem ofRatio_scaled {m e : Nat} (hm : m < Nat.pow 2 53) (he : e = 0 ∨ Nat.pow 2 52 ≤ m) :
    ofRatio (m * Nat.pow 2 e) (Nat.pow 2 1074) =
      ofMagnitude (min (e * Nat.pow 2 52 + m) infinityBits) := by
  have hlog : (m * Nat.pow 2 e).log2 - 52 = e := by
    rw [Nat.pow_eq] at hm he ⊢
    rcases he with rfl | he
    · by_cases h0 : m = 0
      · simp [h0]
      · have := (Nat.log2_lt h0).mpr hm
        simp only [Nat.pow_zero, Nat.mul_one]
        omega
    · have hpos : m * 2 ^ e ≠ 0 := Nat.mul_ne_zero (by omega) (Nat.ne_of_gt (Nat.two_pow_pos e))
      have : (m * 2 ^ e).log2 = 52 + e := by
        rw [Nat.log2_eq_iff hpos, Nat.pow_add, Nat.add_right_comm, Nat.pow_add]
        exact ⟨Nat.mul_le_mul_right _ he, Nat.mul_lt_mul_of_pos_right hm (Nat.two_pow_pos e)⟩
      omega
  have hunit : 0 < Nat.pow 2 1074 := Nat.pow_pos Nat.two_pos
  rw [ofRatio]
  generalize Nat.pow 2 1074 = unit at hunit ⊢
  rw [Nat.mul_div_cancel _ hunit, hlog, Nat.mul_comm unit, roundHalfEven_mul hunit,
    roundHalfEven_of_dvd (d := Nat.pow 2 e) (Nat.pow_pos Nat.two_pos)]

theorem ofRatio_units {x : Binary64} (h : x.magnitude < infinityBits) :
    ofRatio x.units (Nat.pow 2 1074) = ofMagnitude x.magnitude := by
  have hmod : x.magnitude % 2 ^ 52 < 2 ^ 52 := Nat.mod_lt _ (Nat.two_pow_pos 52)
  have hdiv := Nat.div_add_mod x.magnitude (2 ^ 52)
  rw [units, ofRatio_scaled]
  · congr 1
    rw [Nat.min_eq_left]
    all_goals simp only [scale, significand, Nat.pow_eq]
    all_goals split <;> omega
  · simp only [significand, Nat.pow_eq]
    split <;> omega
  · simp only [significand, scale, Nat.pow_eq]
    split <;> omega

theorem ofExpansion_expansion {x : Binary64} (h : x.magnitude < infinityBits) :
    ofExpansion x.expansion = ofMagnitude x.magnitude := by
  have hten (k : Nat) : Nat.pow 10 k = Nat.pow 2 k * Nat.pow 5 k := Nat.mul_pow 2 5 k
  rw [ofExpansion, expansion, hten, ofRatio_mul (k := Nat.pow 5 places) (Nat.pow_pos (by decide))]
  exact ofRatio_units h

/-- Whatever grid the search ends on, its answer reads back. -/
theorem ofExpansion_coarsest {x : Binary64} {s : Nat} (h : ofExpansion s = x) (u : Nat) :
    ofExpansion (coarsest x s u) = x := by
  induction u with
  | zero => exact h
  | succ u ih =>
    simp only [coarsest]
    split
    · rename_i hlow
      split
      · rename_i hhigh
        exact hhigh.1
      · exact hlow
    · split
      · assumption
      · exact ih

theorem ofExpansion_shortest {x : Binary64} (hn : x.isNegative = false)
    (h : x.magnitude < infinityBits) : ofExpansion x.shortest = x := by
  have hx : ofMagnitude x.magnitude = x := abs_of_isNegative_eq_false hn
  exact ofExpansion_coarsest ((ofExpansion_expansion h).trans hx) _

/-! ### Digits -/

theorem trimZeros_append (ds : List Char) :
    ∃ k, trimZeros ds ++ List.replicate k '0' = ds := by
  refine ⟨(ds.reverse.takeWhile (· == '0')).length, ?_⟩
  have hzeros : ds.reverse.takeWhile (· == '0') =
      List.replicate (ds.reverse.takeWhile (· == '0')).length '0' := by
    rw [List.eq_replicate_iff]
    have hall := List.all_takeWhile (p := (· == '0')) (l := ds.reverse)
    exact ⟨rfl, fun c hc => by simpa using List.all_eq_true.mp hall c hc⟩
  rw [← List.reverse_inj, trimZeros, List.reverse_append, List.reverse_reverse,
    List.reverse_replicate, ← hzeros, List.takeWhile_append_dropWhile]

/-- Filling up with zeros in front and trimming zeros behind scales a number. -/
theorem ofDigitChars_trimZeros {n width : Nat} (hw : 0 < width) (hn : n < Nat.pow 10 width) :
    ∃ k, (trimZeros ((Nat.toDigits 10 n).leftpad width '0')).length + k = width ∧
      Nat.ofDigitChars 10 (trimZeros ((Nat.toDigits 10 n).leftpad width '0')) 0 *
        Nat.pow 10 k = n := by
  have hlen : ((Nat.toDigits 10 n).leftpad width '0').length = width := by
    have := (Nat.length_toDigits_le_iff (by decide) hw).mpr hn
    rw [List.leftpad, List.length_append, List.length_replicate]
    omega
  have hvalue : Nat.ofDigitChars 10 ((Nat.toDigits 10 n).leftpad width '0') 0 = n := by
    rw [List.leftpad, Nat.ofDigitChars_append, Nat.ofDigitChars_replicate_zero, Nat.mul_zero,
      Nat.ofDigitChars_ten_toDigits]
  obtain ⟨k, hk⟩ := trimZeros_append ((Nat.toDigits 10 n).leftpad width '0')
  refine ⟨k, ?_, ?_⟩
  · have := congrArg List.length hk
    rwa [List.length_append, List.length_replicate, hlen] at this
  · have := congrArg (fun ds => Nat.ofDigitChars 10 ds 0) hk
    simpa only [Nat.ofDigitChars_append, Nat.ofDigitChars_replicate_zero, hvalue,
      Nat.mul_comm, Nat.pow_eq] using this

/-- Digits, and after a point further digits if there are any. -/
def written (whole fraction : List Char) : List Char :=
  if fraction = [] then whole else whole ++ '.' :: fraction

@[simp] theorem written_cons (c : Char) (whole fraction : List Char) :
    written (c :: whole) fraction = c :: written whole fraction := by
  simp only [written]
  split <;> rfl

theorem positional_eq (s : Nat) :
    ∃ whole fraction, positional s = written whole fraction ∧ whole ≠ [] ∧
      (∀ c ∈ whole, c.isDigit) ∧ (∀ c ∈ fraction, c.isDigit) ∧
      ofDigits whole fraction = ofExpansion s := by
  have hpos : 0 < Nat.pow 10 places := Nat.pow_pos (by decide)
  obtain ⟨k, hlen, hvalue⟩ := ofDigitChars_trimZeros (by decide) (Nat.mod_lt s hpos)
  refine ⟨_, _, rfl, Nat.toDigits_ne_nil, ?_, ?_, ?_⟩
  · exact fun c hc => Nat.isDigit_of_mem_toDigits (by decide) (by decide) hc
  · intro c hc
    obtain ⟨j, hj⟩ := trimZeros_append
      ((Nat.toDigits 10 (s % Nat.pow 10 places)).leftpad places '0')
    have hmem := hj ▸ List.mem_append_left (List.replicate j '0') hc
    rw [List.leftpad, List.mem_append, List.mem_replicate] at hmem
    rcases hmem with ⟨-, rfl⟩ | hmem
    · decide
    · exact Nat.isDigit_of_mem_toDigits (by decide) (by decide) hmem
  · generalize trimZeros _ = fraction at hlen hvalue ⊢
    have hk : 0 < Nat.pow 10 k := Nat.pow_pos (by decide)
    have hscale : Nat.pow 10 fraction.length * Nat.pow 10 k = Nat.pow 10 places :=
      hlen ▸ (Nat.pow_add 10 fraction.length k).symm
    rw [ofDigits, ofExpansion, ← ofRatio_mul hk, hscale, Nat.ofDigitChars_append,
      Nat.ofDigitChars_ten_toDigits, Nat.ofDigitChars_eq_ofDigitChars_zero, Nat.add_mul, hvalue]
    congr 1
    rw [Nat.mul_right_comm, ← Nat.pow_eq, hscale]
    exact Nat.div_add_mod s _

/-- A finite number that is not negative is written as digits that read back. -/
theorem text_eq {x : Binary64} (hn : x.isNegative = false) (h : x.magnitude < infinityBits) :
    ∃ whole fraction, x.text = written whole fraction ∧ whole ≠ [] ∧
      (∀ c ∈ whole, c.isDigit) ∧ (∀ c ∈ fraction, c.isDigit) ∧ ofDigits whole fraction = x := by
  obtain ⟨whole, fraction, htext, hrest⟩ := positional_eq x.shortest
  refine ⟨whole, fraction, ?_, ?_⟩
  · have hnan : x.isNaN = false := by simp only [isNaN, decide_eq_false_iff_not]; omega
    have hinf : x.isInfinite = false := by
      simp only [isInfinite, decide_eq_false_iff_not]
      omega
    simp [text, hnan, hinf, hn, abs_of_isNegative_eq_false hn, htext]
  · rwa [ofExpansion_shortest hn h] at hrest

/-- What is too large for a finite number is written as a word. -/
theorem text_of_isInfinite {x : Binary64} (hn : x.isNegative = false) (h : x.isInfinite) :
    x.text = "inf".toList := by
  have hnan : x.isNaN = false := by
    simp only [isInfinite, decide_eq_true_eq] at h
    simp [isNaN, h]
  simp [text, hnan, h, hn]

/-- What is read from digits is not negative, and finite unless it is infinite. -/
theorem ofDigits_range (whole fraction : List Char) :
    (ofDigits whole fraction).isNegative = false ∧
      ((ofDigits whole fraction).isInfinite = false →
        (ofDigits whole fraction).magnitude < infinityBits) := by
  simp only [ofDigits, ofRatio]
  generalize hm : min _ infinityBits = m
  have hle : m ≤ infinityBits := hm ▸ Nat.min_le_right _ _
  have hlt : m < Nat.pow 2 63 := Nat.lt_of_le_of_lt hle (by decide)
  refine ⟨isNegative_ofMagnitude hlt, fun hi => ?_⟩
  rw [isInfinite, magnitude_ofMagnitude hlt, decide_eq_false_iff_not] at hi
  rw [magnitude_ofMagnitude hlt]
  omega

end Binary64
end LetScript
