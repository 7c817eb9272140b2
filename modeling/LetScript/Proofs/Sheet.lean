import Mathlib.Data.List.Chain
import LetScript.Proofs.Relocation

/-! Sheets: lists of tokens taken apart into the significant tokens and the
runs of trivia between them. A style rule asks something of every run, and a fix
puts another run in its place. -/
namespace LetScript

structure Run where
  tokens : List Token
  blank : ∀ t ∈ tokens, t.isTrivia

/-- A significant token and the run behind it. -/
structure Cell where
  token : Token
  solid : token.isTrivia = false
  run : Run

structure Sheet where
  lead : Run
  cells : List Cell

def Cell.tokens (c : Cell) : List Token := c.token :: c.run.tokens

def joinCells (cs : List Cell) : List Token := cs.flatMap Cell.tokens

@[simp] theorem joinCells_nil : joinCells [] = [] := rfl

@[simp] theorem joinCells_cons (c : Cell) (cs : List Cell) :
    joinCells (c :: cs) = c.token :: (c.run.tokens ++ joinCells cs) := by
  simp [joinCells, Cell.tokens]

@[simp] theorem joinCells_append (as bs : List Cell) :
    joinCells (as ++ bs) = joinCells as ++ joinCells bs :=
  List.flatMap_append

@[simp] theorem significant_append (as bs : List Token) :
    significant (as ++ bs) = significant as ++ significant bs :=
  List.filter_append ..

@[simp] theorem significant_run (r : Run) : significant r.tokens = [] := by
  simp only [significant, List.filter_eq_nil_iff]
  exact fun t ht => by simp [r.blank t ht]

@[simp] theorem significant_cell (c : Cell) :
    significant (c.token :: c.run.tokens) = [c.token] := by
  rw [significant, List.filter_cons_of_pos (by simp [c.solid])]
  exact congrArg _ (significant_run c.run)

@[simp] theorem significant_append_cell (front : List Token) (c : Cell) :
    (significant (front ++ c.token :: c.run.tokens)).reverse =
      c.token :: (significant front).reverse := by
  simp

/-- The significant token after a run. -/
def nextToken (cs : List Cell) : Option Token := cs.head?.map Cell.token

@[simp] theorem nextToken_nil : nextToken [] = none := rfl

@[simp] theorem nextToken_cons (c : Cell) (cs : List Cell) :
    nextToken (c :: cs) = some c.token := rfl

namespace Sheet

def tokens (s : Sheet) : List Token := s.lead.tokens ++ joinCells s.cells

def ofTokens : List Token → Sheet
  | [] => ⟨⟨[], by simp⟩, []⟩
  | t :: ts =>
    let s := ofTokens ts
    if h : t.isTrivia then ⟨⟨t :: s.lead.tokens, by simpa [h] using s.lead.blank⟩, s.cells⟩
    else ⟨⟨[], by simp⟩, ⟨t, by simpa using h, s.lead⟩ :: s.cells⟩

@[simp] theorem tokens_ofTokens (ts : List Token) : (ofTokens ts).tokens = ts := by
  induction ts with
  | nil => rfl
  | cons t ts ih =>
    rw [tokens] at ih
    rw [ofTokens]
    split
    · simp [tokens, ih]
    · simp [tokens, ih]

theorem exists_tokens_eq (ts : List Token) : ∃ s : Sheet, s.tokens = ts :=
  ⟨ofTokens ts, tokens_ofTokens ts⟩

end Sheet

/-! ### What holds of every run -/

section
variable (P : List Token → Run → Option Token → Prop)

/-- Something holds of every run, of the significant tokens before it, the
nearest one first, and of the significant token after it. -/
def CellsHold (before : List Token) : List Cell → Prop
  | [] => True
  | c :: cs => P (c.token :: before) c.run (nextToken cs) ∧ CellsHold (c.token :: before) cs

def Sheet.Holds (s : Sheet) : Prop := P [] s.lead (nextToken s.cells) ∧ CellsHold P [] s.cells

end

section
variable {P Q : List Token → Run → Option Token → Prop}

theorem CellsHold.and {before : List Token} {cs : List Cell} (hp : CellsHold P before cs)
    (hq : CellsHold Q before cs) :
    CellsHold (fun before run next => P before run next ∧ Q before run next) before cs := by
  induction cs generalizing before with
  | nil => trivial
  | cons c cs ih => exact ⟨⟨hp.1, hq.1⟩, ih hp.2 hq.2⟩

namespace Sheet

variable {s : Sheet}

theorem Holds.and (hp : s.Holds P) (hq : s.Holds Q) :
    s.Holds fun before run next => P before run next ∧ Q before run next :=
  ⟨⟨hp.1, hq.1⟩, hp.2.and hq.2⟩

end Sheet
end

/-- Every token of a run and around it has a property. -/
def Around (p : Token → Prop) (before : List Token) (run : Run) (next : Option Token) : Prop :=
  (∀ t ∈ before, p t) ∧ (∀ t ∈ run.tokens, p t) ∧ ∀ t ∈ next, p t

section
variable {p : Token → Prop}

theorem cellsHold_around {before : List Token} {cs : List Cell} (hb : ∀ t ∈ before, p t)
    (h : ∀ t ∈ joinCells cs, p t) : CellsHold (Around p) before cs := by
  induction cs generalizing before with
  | nil => trivial
  | cons c cs ih =>
    simp only [joinCells_cons, List.mem_cons, List.mem_append, forall_eq_or_imp] at h
    have hb' : ∀ t ∈ c.token :: before, p t := by simpa using ⟨h.1, hb⟩
    refine ⟨⟨hb', fun t ht => h.2 t (.inl ht), fun t ht => ?_⟩, ih hb' fun t ht => h.2 t (.inr ht)⟩
    cases cs with
    | nil => cases ht
    | cons d ds => exact h.2 t (.inr (by simp_all))

theorem Sheet.holds_around {s : Sheet} (h : ∀ t ∈ s.tokens, p t) : s.Holds (Around p) := by
  have hcells : ∀ t ∈ joinCells s.cells, p t := fun t ht => h t (List.mem_append_right _ ht)
  refine ⟨⟨by simp, fun t ht => h t (List.mem_append_left _ ht), fun t ht => hcells t ?_⟩,
    cellsHold_around (by simp) hcells⟩
  cases hc : s.cells with
  | nil => simp [hc] at ht
  | cons c cs => simp_all

end

/-! ### Mending runs -/

/-- A space or a line break that a fix has put in. -/
def Token.IsFresh (t : Token) : Prop := ∃ p, t = .space p ∨ t = .lineBreak p

theorem Token.IsFresh.isTrivia {t : Token} (h : t.IsFresh) : t.isTrivia := by
  obtain ⟨p, rfl | rfl⟩ := h <;> rfl

/-- A way to mend runs. It brings in nothing but spaces and line breaks, and it
never closes a run up. -/
structure Mend where
  apply : List Token → List Token → Option Token → List Token
  fresh : ∀ before run next, ∀ t ∈ apply before run next, t ∈ run ∨ t.IsFresh
  keeps : ∀ before run next, run ≠ [] → apply before run next ≠ []

namespace Mend

/-- Leave every run as it is. -/
def nothing : Mend := ⟨fun _ run _ => run, fun _ _ _ _ h => .inl h, fun _ _ _ h => h⟩

variable (m : Mend)

def run (before : List Token) (r : Run) (next : Option Token) : Run :=
  ⟨m.apply before r.tokens next, fun t ht => (m.fresh _ _ _ t ht).elim (r.blank t) (·.isTrivia)⟩

def cells (before : List Token) : List Cell → List Cell
  | [] => []
  | c :: cs =>
    ⟨c.token, c.solid, m.run (c.token :: before) c.run (nextToken cs)⟩ ::
      cells (c.token :: before) cs

@[simp] theorem joinCells_cells_cons (before : List Token) (c : Cell) (cs : List Cell) :
    joinCells (m.cells before (c :: cs)) =
      c.token :: ((m.run (c.token :: before) c.run (nextToken cs)).tokens ++
        joinCells (m.cells (c.token :: before) cs)) :=
  joinCells_cons _ _

@[simp] theorem nextToken_cells (before : List Token) (cs : List Cell) :
    nextToken (m.cells before cs) = nextToken cs := by
  cases cs <;> rfl

@[simp] theorem map_token_cells (before : List Token) (cs : List Cell) :
    (m.cells before cs).map Cell.token = cs.map Cell.token := by
  induction cs generalizing before with
  | nil => rfl
  | cons c cs ih => simp [cells, ih]

@[simp] theorem cells_nothing (before : List Token) (cs : List Cell) :
    nothing.cells before cs = cs := by
  induction cs generalizing before with
  | nil => rfl
  | cons c cs ih =>
    rw [cells, ih]
    rfl

end Mend

theorem CellsHold.mend {P Q : List Token → Run → Option Token → Prop} {m : Mend}
    (h : ∀ before run next, P before run next → Q before (m.run before run next) next)
    {before : List Token} {cs : List Cell} (hp : CellsHold P before cs) :
    CellsHold Q before (m.cells before cs) := by
  induction cs generalizing before with
  | nil => trivial
  | cons c cs ih =>
    refine ⟨?_, ih hp.2⟩
    rw [Mend.nextToken_cells]
    exact h _ _ _ hp.1

namespace Sheet

variable (s : Sheet) (m : Mend)

def mend : Sheet := ⟨m.run [] s.lead (nextToken s.cells), m.cells [] s.cells⟩

variable {s m}

/-- What mending brings about in one run it brings about in all. -/
theorem Holds.mend {P Q : List Token → Run → Option Token → Prop}
    (h : ∀ before run next, P before run next → Q before (m.run before run next) next)
    (hp : s.Holds P) : (s.mend m).Holds Q := by
  refine ⟨?_, hp.2.mend h⟩
  simp only [Sheet.mend, Mend.nextToken_cells]
  exact h _ _ _ hp.1

@[simp] theorem mend_nothing : s.mend .nothing = s := by
  rw [mend, Mend.cells_nothing]
  rfl

@[simp] theorem significant_tokens (s : Sheet) : significant s.tokens = s.cells.map Cell.token := by
  rw [tokens, significant_append, significant_run, List.nil_append]
  induction s.cells with
  | nil => rfl
  | cons c cs ih =>
    rw [joinCells_cons, ← List.cons_append, significant_append, significant_cell, ih]
    rfl

/-- Mending loses, adds and moves no significant token. -/
@[simp] theorem significant_mend : significant (s.mend m).tokens = significant s.tokens := by
  rw [significant_tokens, significant_tokens, mend, Mend.map_token_cells]

/-- A property of tokens that spaces and line breaks have is kept. -/
theorem forall_mem_mend {p : Token → Prop} (hfresh : ∀ t, t.IsFresh → p t)
    (h : ∀ t ∈ s.tokens, p t) : ∀ t ∈ (s.mend m).tokens, p t := by
  have hrun {before : List Token} {r : Run} {next : Option Token} (hr : ∀ t ∈ r.tokens, p t) :
      ∀ t ∈ (m.run before r next).tokens, p t :=
    fun t ht => (m.fresh _ _ _ t ht).elim (hr t) (hfresh t)
  have hcells {before : List Token} {cs : List Cell} (hcs : ∀ t ∈ joinCells cs, p t) :
      ∀ t ∈ joinCells (m.cells before cs), p t := by
    induction cs generalizing before with
    | nil => exact hcs
    | cons c cs ih =>
      simp only [joinCells_cons, List.mem_cons, List.mem_append, forall_eq_or_imp, Mend.cells]
        at hcs ⊢
      refine ⟨hcs.1, fun t ht => ?_⟩
      rcases ht with ht | ht
      · exact hrun (fun u hu => hcs.2 u (.inl hu)) t ht
      · exact ih (fun u hu => hcs.2 u (.inr hu)) t ht
  intro t ht
  rcases List.mem_append.mp ht with ht | ht
  · exact hrun (fun u hu => h u (List.mem_append_left _ hu)) t ht
  · exact hcells (fun u hu => h u (List.mem_append_right _ hu)) t ht

end Sheet

/-! ### Neighbours -/

section
variable {R : Token → Token → Prop} (hl : ∀ t u, t.isTrivia → R t u)
  (hr : ∀ t u, u.isTrivia → R t u)
include hl

@[simp] theorem isChain_run_append (r : Run) (ts : List Token) :
    (r.tokens ++ ts).IsChain R ↔ ts.IsChain R := by
  obtain ⟨run, hrun⟩ := r
  induction run with
  | nil => rfl
  | cons t run ih =>
    rw [List.cons_append, List.isChain_cons, ih fun u hu => hrun u (by simp [hu])]
    exact and_iff_right fun u _ => hl t u (hrun t (by simp))

include hr

theorem isChain_joinCells (before : List Token) (cs : List Cell) :
    (joinCells cs).IsChain R ↔ CellsHold (fun before run next =>
      run.tokens = [] → ∀ u ∈ before.head?, ∀ v ∈ next, R u v) before cs := by
  induction cs generalizing before with
  | nil => simp [CellsHold]
  | cons c cs ih =>
    rw [joinCells_cons, List.isChain_cons, isChain_run_append hl, ih (c.token :: before), CellsHold]
    refine and_congr_left fun _ => ?_
    cases hrun : c.run.tokens with
    | nil =>
      cases cs <;> simp
    | cons t run => simpa [hrun] using hr _ t (c.run.blank t (by simp [hrun]))

/-- Neighbours in a list are trivia or lie around an empty run. -/
theorem Sheet.isChain_tokens (s : Sheet) :
    s.tokens.IsChain R ↔ s.Holds fun before run next =>
      run.tokens = [] → ∀ u ∈ before.head?, ∀ v ∈ next, R u v := by
  rw [tokens, isChain_run_append hl, isChain_joinCells hl hr [], Holds]
  simp

/-- Mending brings no two significant tokens together. -/
theorem Sheet.isChain_mend {s : Sheet} (m : Mend) (h : s.tokens.IsChain R) :
    (s.mend m).tokens.IsChain R := by
  rw [isChain_tokens hl hr] at h ⊢
  refine h.mend fun before run next hp hempty => hp ?_
  exact Classical.byContradiction fun hne => m.keeps _ _ _ hne hempty

end

end LetScript
