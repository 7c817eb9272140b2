import LetScript.Proofs.Access
import LetScript.Proofs.Blame
import LetScript.Proofs.Nesting

/-! Lines as ranges of the tokens that they are cut from. The ranges come one behind the other, and
what lies between them are semicolons outside all braces. Main statement: together they make up
the tokens, up to a rest that the fault is about. -/
namespace LetScript

open Guarded

/-- A range of indices, from `start` up to but without `stop`. -/
structure Span where
  start : Nat
  stop : Nat
deriving DecidableEq, Repr

def Span.tokens (s : Span) (ts : List Token) : List Token := part ts s.start s.stop

/-! ### Depth as a difference -/

/-- How many more braces a list of tokens opens than it closes. -/
def braceDepth (ts : List Token) : Int := countKind .openBrace ts - countKind .closeBrace ts

theorem braceDepth_of_depthAfter {d : Nat} {ts : List Token}
    (h : depthAfter .openBrace .closeBrace 0 ts = some d) : braceDepth ts = d := by
  have hcount := countKind_of_depthAfter (by decide) h
  unfold braceDepth
  omega

theorem Balanced.of_braceDepth {as bs : List Token}
    (h : Balanced .openBrace .closeBrace (as ++ bs)) (has : braceDepth as = 0) :
    Balanced .openBrace .closeBrace as := by
  obtain ⟨d, hd⟩ := exists_depth_of_append h
  rw [braceDepth_of_depthAfter hd] at has
  obtain rfl : d = 0 := by omega
  exact hd

/-! ### Lines by themselves -/

/-- A line closes all braces that it opens, at no point it has closed more than it has opened, and
every semicolon in it stands between braces. -/
structure Line.Whole (l : Line) : Prop where
  total : braceDepth l.tokens = 0
  front : ∀ n, 0 ≤ braceDepth (l.tokens.take n)
  inner : ∀ before t after, l.tokens = before ++ t :: after → t.kind = .semicolon →
    braceDepth before ≠ 0

/-- A conditional that ends with a brace before something else than `else`. This brace leads out of
all braces, and each one before it that does so is followed by `else`. -/
structure Line.Closed (l : Line) (next : List Token) : Prop where
  word : l.first.kind = .ifWord
  brace : ∃ c, l.tokens.getLast? = some c ∧ c.kind = .closeBrace
  ends : elseFollows next = false
  outside : ∀ before c after, l.tokens = before ++ c :: after → c.kind = .closeBrace →
    braceDepth (before ++ [c]) = 0 → after = [] ∨ elseFollows after

/-- No semicolon of the tokens stands outside all braces. -/
def Unparted (ts : List Token) : Prop :=
  ∀ before t after, ts = before ++ t :: after → t.kind = .semicolon →
    ¬ Balanced .openBrace .closeBrace before

@[simp] theorem unparted_nil : Unparted [] := by
  intro before t after h
  simp at h

theorem Unparted.concat {ts : List Token} {t : Token} (h : Unparted ts)
    (ht : t.kind = .semicolon → ¬ Balanced .openBrace .closeBrace ts) : Unparted (ts ++ [t]) := by
  intro before u after heq hu
  rcases append_singleton_eq_append heq with ⟨-, rfl, rfl⟩ | ⟨after, -, rfl⟩
  · exact ht hu
  · exact h before u after rfl hu

/-- A line that has begun does not begin with a semicolon. -/
theorem Unparted.kind_ne {t : Token} {ts : List Token} (h : Unparted (t :: ts)) :
    t.kind ≠ .semicolon :=
  fun ht => h [] t ts rfl ht balanced_nil

/-- A semicolon joins the line so far only between braces. -/
theorem Underway.unparted {d d' : Nat} {current ts : List Token} {t : Token}
    (h : Underway d current (t :: ts)) (hu : Unparted current)
    (hs : cutStep d current t (elseFollows ts) = .join d') : Unparted (current ++ [t]) := by
  refine hu.concat fun ht hb => ?_
  obtain rfl : d = 0 := by simpa [Balanced, h.depth] using hb
  cases current <;> simp [cutStep, ht] at hs

theorem Line.Sealed.whole {l : Line} (h : l.Sealed) (hu : Unparted l.tokens) : l.Whole where
  total := braceDepth_of_depthAfter h.balanced
  front n := by
    have hb := h.balanced
    rw [← List.take_append_drop n l.tokens] at hb
    obtain ⟨d, hd⟩ := exists_depth_of_append hb
    rw [braceDepth_of_depthAfter hd]
    omega
  inner before t after heq ht hzero := by
    have hb := h.balanced
    rw [heq] at hb
    exact hu before t after heq ht (hb.of_braceDepth hzero)

/-- A line that a brace completes is a conditional without a further branch. -/
theorem cutStep_closed {d : Nat} {current : List Token} {t : Token} {b : Bool} {l : Line}
    (h : cutStep d current t b = .complete l) (ht : t.kind = .closeBrace) :
    l.first.kind = .ifWord ∧ b = false ∧ l.tokens = current ++ [t] := by
  simp only [cutStep, ht] at h
  split at h
  · cases h
  · split at h
    · rename_i hif
      cases h
      exact ⟨hif.1, hif.2, rfl⟩
    · cases h
  · cases h

theorem Line.Sealed.closed {l : Line} {current next : List Token} {t : Token} (h : l.Sealed)
    (hif : l.first.kind = .ifWord) (htokens : l.tokens = current ++ [t])
    (ht : t.kind = .closeBrace) (hnext : elseFollows next = false) : l.Closed next where
  word := hif
  brace := ⟨t, by rw [htokens, List.getLast?_concat], ht⟩
  ends := hnext
  outside before c after heq hc hzero := by
    have hb := h.balanced
    rw [heq, List.append_cons] at hb
    exact h.ends hif before c after heq hc (hb.of_braceDepth hzero)

/-! ### Lines in the tokens -/

/-- A semicolon outside all braces. -/
def Skipped (ts : List Token) (i : Nat) : Prop :=
  ∃ t, ts[i]? = some t ∧ t.kind = .semicolon ∧ braceDepth (ts.take i) = 0

/-- From one index to another, the tokens are lines and semicolons to be skipped. -/
inductive Parted (ts : List Token) : Nat → List Span → List Line → Nat → Prop
  | rest {n : Nat} (hn : ∀ t, ts[n]? = some t → t.kind ≠ .semicolon) : Parted ts n [] [] n
  | skip {n m : Nat} {spans : List Span} {ls : List Line} (hn : Skipped ts n)
      (h : Parted ts (n + 1) spans ls m) : Parted ts n spans ls m
  | line {n k m : Nat} {l : Line} {spans : List Span} {ls : List Line} (hnk : n < k)
      (hk : k ≤ ts.length) (htokens : part ts n k = l.tokens) (hwhole : l.Whole)
      (hend : Skipped ts k ∨ l.Closed (ts.drop k)) (h : Parted ts k spans ls m) :
      Parted ts n (⟨n, k⟩ :: spans) (l :: ls) m

namespace Parted

variable {ts : List Token} {n m : Nat} {spans : List Span} {ls : List Line}

theorem le (h : Parted ts n spans ls m) : n ≤ m := by
  induction h with
  | rest => exact Nat.le_refl _
  | skip _ _ ih => omega
  | line hnk _ _ _ _ _ ih => omega

theorem le_length (h : Parted ts n spans ls m) (hn : n ≤ ts.length) : m ≤ ts.length := by
  induction h with
  | rest => exact hn
  | skip hskip _ ih =>
    obtain ⟨t, ht, -⟩ := hskip
    exact ih (List.getElem?_eq_some_iff.mp ht).1
  | line _ hk _ _ _ _ ih => exact ih hk

theorem start_le (h : Parted ts n spans ls m) {s : Span} (hs : s ∈ spans) : n ≤ s.start := by
  induction h with
  | rest => cases hs
  | skip _ _ ih =>
    have := ih hs
    omega
  | line hnk _ _ _ _ _ ih =>
    rcases List.mem_cons.mp hs with rfl | hs
    · exact Nat.le_refl _
    · have := ih hs
      omega

theorem bounds (h : Parted ts n spans ls m) {s : Span} (hs : s ∈ spans) :
    s.start < s.stop ∧ s.stop ≤ m := by
  induction h with
  | rest => cases hs
  | skip _ _ ih => exact ih hs
  | line hnk _ _ _ _ h ih =>
    rcases List.mem_cons.mp hs with rfl | hs
    · exact ⟨hnk, h.le⟩
    · exact ih hs

theorem ordered (h : Parted ts n spans ls m) :
    spans.Pairwise fun s s' => s.stop ≤ s'.start := by
  induction h with
  | rest => exact .nil
  | skip _ _ ih => exact ih
  | line _ _ _ _ _ h ih => exact List.pairwise_cons.mpr ⟨fun s hs => h.start_le hs, ih⟩

theorem covers (h : Parted ts n spans ls m) {i : Nat} (hn : n ≤ i) (hm : i < m) :
    (∃ s ∈ spans, s.start ≤ i ∧ i < s.stop) ∨ Skipped ts i := by
  induction h with
  | rest => omega
  | @skip n m spans ls hskip _ ih =>
    by_cases hi : i = n
    · subst hi
      exact .inr hskip
    · exact ih (by omega) hm
  | @line n k m l spans ls _ _ _ _ _ _ ih =>
    by_cases hi : i < k
    · exact .inl ⟨⟨n, k⟩, List.mem_cons_self, hn, hi⟩
    · rcases ih (by omega) hm with ⟨s, hs, hin⟩ | hskip
      · exact .inl ⟨s, List.mem_cons_of_mem _ hs, hin⟩
      · exact .inr hskip

theorem map_tokens (h : Parted ts n spans ls m) :
    spans.map (Span.tokens · ts) = ls.map Line.tokens := by
  induction h with
  | rest => rfl
  | skip _ _ ih => exact ih
  | line _ _ htokens _ _ _ ih => rw [List.map_cons, List.map_cons, ih, ← htokens, Span.tokens]

theorem whole (h : Parted ts n spans ls m) : ∀ l ∈ ls, l.Whole := by
  induction h with
  | rest => simp
  | skip _ _ ih => exact ih
  | line _ _ _ hwhole _ _ ih => exact List.forall_mem_cons.mpr ⟨hwhole, ih⟩

theorem ended (h : Parted ts n spans ls m) :
    List.Forall₂ (fun s l => Skipped ts s.stop ∨ l.Closed (ts.drop s.stop)) spans ls := by
  induction h with
  | rest => exact .nil
  | skip _ _ ih => exact ih
  | line _ _ _ _ hend _ ih => exact .cons hend ih

theorem kind_ne (h : Parted ts n spans ls m) {t : Token} (ht : ts[m]? = some t) :
    t.kind ≠ .semicolon := by
  induction h with
  | rest hn => exact hn t ht
  | skip _ _ ih => exact ih ht
  | line _ _ _ _ _ _ ih => exact ih ht

end Parted

theorem Leaves.fault_eq_none_iff {rest : List Token} {fault : Option SyntaxError}
    (h : Leaves rest fault) : fault = none ↔ rest = [] := by
  cases h <;> simp

section
variable {ts rest : List Token} {t : Token} {start i : Nat}

theorem drop_eq_part (hstart : start ≤ i) : ts.drop start = part ts start i ++ ts.drop i := by
  have hdrop : (ts.drop start).drop (i - start) = ts.drop i := by
    rw [List.drop_drop, Nat.add_sub_cancel' hstart]
  rw [part, ← hdrop, List.take_append_drop]

theorem balanced_take (h : ts.drop i = t :: rest) (ht : t.kind = .semicolon)
    (hb : Balanced .openBrace .closeBrace (ts.take i)) :
    Balanced .openBrace .closeBrace (ts.take (i + 1)) := by
  have htake : ts.take (i + 1) = ts.take i ++ [t] := by
    rw [List.take_add_one, getElem?_of_drop h]
    rfl
  rw [htake]
  exact hb.append (balanced_nil.cons (by simp [ht]) (by simp [ht]))

theorem skipped_of_drop (h : ts.drop i = t :: rest) (ht : t.kind = .semicolon)
    (hb : Balanced .openBrace .closeBrace (ts.take i)) : Skipped ts i :=
  ⟨t, getElem?_of_drop h, ht, braceDepth_of_depthAfter hb⟩

theorem lt_of_part {l : Line} (h : part ts start i = l.tokens) : start < i := by
  by_contra hle
  rw [part, Nat.sub_eq_zero_of_le (Nat.le_of_not_lt hle), List.take_zero] at h
  cases h

/-- What is left begins with the line so far, or with a token that can not join it. -/
theorem kind_ne_of_drop {current more : List Token} (hu : Unparted current)
    (hdrop : ts.drop start = current ++ more)
    (hmore : ∀ t, more.head? = some t → t.kind ≠ .semicolon) :
    ∀ t, ts[start]? = some t → t.kind ≠ .semicolon := by
  intro t ht
  rw [← List.head?_drop, hdrop] at ht
  cases current with
  | nil => exact hmore t ht
  | cons f r =>
    obtain rfl := Option.some.inj ht
    exact hu.kind_ne

/-- The lines that come from the index `start` on, with the line so far up to the index `i`. -/
theorem cutFrom_parted {d : Nat} (hrest : ts.drop i = rest) (hi : i ≤ ts.length)
    (hstart : start ≤ i) (hbefore : Balanced .openBrace .closeBrace (ts.take start))
    (h : Underway d (part ts start i) rest) (hu : Unparted (part ts start i)) :
    ∃ spans covered, Parted ts start spans (cutFrom d (part ts start i) rest).lines covered ∧
      Leaves (ts.drop covered) (cutFrom d (part ts start i) rest).fault := by
  induction rest generalizing d start i with
  | nil =>
    obtain ⟨hpart, -⟩ := part_of_nil start hrest hi
    obtain ⟨hlines, hleaves⟩ := cutFrom_end h.depth
    rw [hlines]
    have hdrop : ts.drop start = part ts start i ++ [] := by rw [hpart, List.append_nil]
    have hfirst := kind_ne_of_drop hu hdrop (by simp)
    exact ⟨[], start, .rest hfirst, hpart ▸ hleaves⟩
  | cons t rest ih =>
    have hnext := drop_succ_of_drop hrest
    have hlt := lt_length_of_drop hrest
    have hjoin := part_succ hrest hstart
    have hleft : ts.drop start = part ts start i ++ t :: rest := by
      rw [drop_eq_part hstart, hrest]
    have fresh (hb : Balanced .openBrace .closeBrace (ts.take (i + 1))) :
        ∃ spans covered, Parted ts (i + 1) spans (cutFrom 0 [] rest).lines covered ∧
          Leaves (ts.drop covered) (cutFrom 0 [] rest).fault := by
      have hagain := @ih (i + 1) (i + 1) 0 hnext hlt (Nat.le_refl _) hb
      rw [part_self] at hagain
      exact hagain (.nil rest) unparted_nil
    have hspec := cutStep_spec d (part ts start i) t (elseFollows rest)
    rw [cutFrom_cons]
    cases hs : cutStep d (part ts start i) t (elseFollows rest) with
    | join d' =>
      have hunder := h.join hs
      have hunparted := h.unparted hu hs
      rw [← hjoin] at hunder hunparted
      simp only [← hjoin]
      exact ih hnext hlt (by omega) hbefore hunder hunparted
    | skip =>
      rw [hs] at hspec
      obtain ⟨ht, hnil⟩ := hspec
      have htake : ts.take i = ts.take start := by rw [take_eq_part hstart, hnil, List.append_nil]
      obtain rfl : start = i := by
        have hlen := congrArg List.length htake
        simp only [List.length_take] at hlen
        omega
      obtain ⟨spans, covered, hparted, hleaves⟩ := fresh (balanced_take hrest ht hbefore)
      exact ⟨spans, covered, .skip (skipped_of_drop hrest ht hbefore) hparted, hleaves⟩
    | complete l =>
      have hsealed := h.complete hs
      rcases cutStep_eq_complete hs with ⟨ht, rfl, htokens⟩ | ⟨ht, rfl, htokens⟩
      · have hb : Balanced .openBrace .closeBrace (ts.take i) := by
          rw [take_eq_part hstart]
          exact hbefore.append h.depth
        have hskip := skipped_of_drop hrest ht hb
        have hbegun := lt_of_part htokens
        obtain ⟨spans, covered, hparted, hleaves⟩ := fresh (balanced_take hrest ht hb)
        refine ⟨⟨start, i⟩ :: spans, covered, ?_, hleaves⟩
        have hwhole := hsealed.whole (htokens ▸ hu)
        exact .line hbegun hi htokens hwhole (.inl hskip) (.skip hskip hparted)
      · rw [← hjoin] at htokens
        obtain ⟨hif, helse, hend⟩ := cutStep_closed hs ht
        have hb : Balanced .openBrace .closeBrace (ts.take (i + 1)) := by
          rw [take_eq_part (Nat.le_succ_of_le hstart), htokens]
          exact hbefore.append hsealed.balanced
        have hclosed : l.Closed (ts.drop (i + 1)) := hsealed.closed hif hend ht (hnext ▸ helse)
        have hunparted := hu.concat (t := t) (by simp [ht])
        obtain ⟨spans, covered, hparted, hleaves⟩ := fresh hb
        refine ⟨⟨start, i + 1⟩ :: spans, covered, ?_, hleaves⟩
        exact .line (by omega) hlt htokens (hsealed.whole (hend ▸ hunparted)) (.inr hclosed) hparted
    | fault e =>
      rw [hs] at hspec
      obtain ⟨hk, rfl, rfl⟩ := hspec
      have hfirst := kind_ne_of_drop hu hleft fun u hu => by
        obtain rfl := Option.some.inj hu
        simp [hk]
      exact ⟨[], start, .rest hfirst, hleft ▸ .excess h.depth hk⟩

end

/-- How a list of tokens is parted by its lines. Each line is a range of it, these ranges are not
empty and come one behind the other, and all that they leave out up to the index `covered` are
semicolons outside all braces. A line that no such semicolon follows is a conditional that its last
brace ends. What is left from `covered` on is what the fault is about. -/
structure Partition (ts : List Token) (c : Cut) (spans : List Span) (covered : Nat) : Prop where
  tokens : spans.map (Span.tokens · ts) = c.lines.map Line.tokens
  nonempty : ∀ s ∈ spans, s.start < s.stop
  ordered : spans.Pairwise fun s s' => s.stop ≤ s'.start
  bounded : ∀ s ∈ spans, s.stop ≤ covered
  skipped : ∀ i < covered, (∃ s ∈ spans, s.start ≤ i ∧ i < s.stop) ∨ Skipped ts i
  whole : ∀ l ∈ c.lines, l.Whole
  ended : List.Forall₂ (fun s l => ¬ Skipped ts s.stop → l.Closed (ts.drop s.stop)) spans c.lines
  within : covered ≤ ts.length
  rest : ∀ t, ts[covered]? = some t → t.kind ≠ .semicolon
  complete : c.fault = none ↔ covered = ts.length
  blamed : ∀ e, c.fault = some e →
    covered < ts.length ∧ ∃ t ∈ ts.drop covered, e.position = t.position

/-- Cutting tokens into lines parts them: no token is lost or comes twice, and there is a fault
exactly if the lines and the semicolons between them do not make up all of the tokens. -/
theorem cutLines_partition (ts : List Token) :
    ∃ spans covered, Partition ts (cutLines ts) spans covered := by
  have hnil : part ts 0 0 = [] := part_self ts 0
  have hrun := @cutFrom_parted ts ts 0 0 0 rfl (Nat.zero_le _) (Nat.le_refl 0) balanced_nil
  rw [hnil] at hrun
  obtain ⟨spans, covered, hparted, hleaves⟩ := hrun (.nil ts) unparted_nil
  have hnone := hleaves.fault_eq_none_iff.trans List.drop_eq_nil_iff
  have hlength := hparted.le_length (Nat.zero_le _)
  refine ⟨spans, covered, ?_⟩
  exact {
    tokens := hparted.map_tokens
    nonempty := fun s hs => (hparted.bounds hs).1
    ordered := hparted.ordered
    bounded := fun s hs => (hparted.bounds hs).2
    skipped := fun i hi => hparted.covers (Nat.zero_le i) hi
    whole := hparted.whole
    ended := hparted.ended.imp fun s l hend => hend.resolve_left
    within := hlength
    rest := fun t ht => hparted.kind_ne ht
    complete := hnone.trans ⟨fun h => Nat.le_antisymm hlength h, fun h => h ▸ Nat.le_refl _⟩
    blamed := fun e he => by
      rw [cutLines] at he
      rw [he] at hleaves
      obtain ⟨t, ht, hp⟩ := hleaves.fits.blames.exists_mem
      have hne : ¬ ts.length ≤ covered := fun hle => by
        rw [List.drop_eq_nil_of_le hle] at ht
        cases ht
      exact ⟨Nat.lt_of_not_le hne, t, ht, hp⟩ }

end LetScript
