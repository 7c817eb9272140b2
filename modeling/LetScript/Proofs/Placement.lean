import LetScript.Proofs.Block
import LetScript.Proofs.Recovery

/-! Where the nodes of a tree stand. A statement stands at its first token, and an expression at the
first of its tokens that opens no group. Main statement: this holds of every node of a program, so
the statements of each block come in the order of the text. -/
namespace LetScript

/-! ### Every node and the tokens it was read from -/

/-- A property of tokens and trees holds of every part of an expression together with the tokens
that the part was read from. A group has no node of its own: what is in it was read with and
without the parentheses. -/
inductive Expr.Throughout (P : List Token → Expr → Prop) : List Token → Expr → Prop
  | atom {t : Token} {e : Expr} (he : e.isAtom) (hp : P [t] e) : Throughout P [t] e
  | group {o c : Token} {ts : List Token} {e : Expr} (ho : o.kind = .openParen)
      (hc : c.kind = .closeParen) (hp : P (o :: (ts ++ [c])) e) (h : Throughout P ts e) :
      Throughout P (o :: (ts ++ [c])) e
  | call {t o c : Token} {ts : List Token} {f : Builtin} {e : Expr} {p : Position}
      (ht : t.value = .builtin f) (ho : o.kind = .openParen) (hc : c.kind = .closeParen)
      (hp : P (t :: o :: (ts ++ [c])) (.call f e p)) (h : Throughout P ts e) :
      Throughout P (t :: o :: (ts ++ [c])) (.call f e p)
  | signed {t : Token} {ts : List Token} {o : Operator} {e : Expr} {p : Position}
      (ht : t.value = .operator o) (hp : P (t :: ts) (.signed o e p)) (h : Throughout P ts e) :
      Throughout P (t :: ts) (.signed o e p)
  | binary {t : Token} {ls rs : List Token} {o : Operator} {x y : Expr}
      (ht : t.value = .operator o) (hp : P (ls ++ t :: rs) (.binary o x y))
      (hl : Throughout P ls x) (hr : Throughout P rs y) :
      Throughout P (ls ++ t :: rs) (.binary o x y)

/-- What holds of all phrases holds throughout each of them. -/
theorem Phrase.throughout {P : List Token → Expr → Prop}
    (hP : ∀ {l : Level} {ts : List Token} {e : Expr}, Phrase l ts e → P ts e) {l : Level}
    {ts : List Token} {e : Expr} (h : Phrase l ts e) : e.Throughout P ts := by
  induction h with
  | number x p => exact .atom rfl (hP (.number x p))
  | string s p => exact .atom rfl (hP (.string s p))
  | boolean b p => exact .atom rfl (hP (.boolean b p))
  | name s p => exact .atom rfl (hP (.name s p))
  | group ho hc h ih => exact .group ho.kind hc.kind (hP (.group ho hc h)) ih
  | call p hf ho hc h ih => exact .call rfl ho.kind hc.kind (hP (.call p hf ho hc h)) ih
  | operand h ih => exact ih
  | signed p ho h ih => exact .signed rfl (hP (.signed p ho h)) ih
  | factor h ih => exact ih
  | times p ho hl hr ihl ihr => exact .binary rfl (hP (.times p ho hl hr)) ihl ihr
  | term h ih => exact ih
  | plus p ho hl hr ihl ihr => exact .binary rfl (hP (.plus p ho hl hr)) ihl ihr

/-- A statement without blocks in it. -/
def Statement.isSimple : Statement → Bool
  | .branch .. => false
  | _ => true

/-- A property of tokens and statements holds of every statement of a block, and of the blocks in
it, together with the tokens that the statement was read from. -/
inductive Throughout (P : List Token → Statement → Prop) : List Token → List Statement → Prop
  | nil : Throughout P [] []
  | empty {t : Token} {ts : List Token} {ss : List Statement} (ht : t.kind = .semicolon)
      (h : Throughout P ts ss) : Throughout P (t :: ts) ss
  | simple {t : Token} {us ts : List Token} {s : Statement} {ss : List Statement}
      (hs : s.isSimple) (hp : P us s) (ht : t.kind = .semicolon) (h : Throughout P ts ss) :
      Throughout P (us ++ t :: ts) (s :: ss)
  | branch {ob cb : Token} {front as ts : List Token} {e : Expr} {xs ss : List Statement}
      {p : Position} (hob : ob.kind = .openBrace) (hcb : cb.kind = .closeBrace)
      (hp : P (front ++ ob :: (as ++ [cb])) (.branch e xs none p)) (ha : Throughout P as xs)
      (h : Throughout P ts ss) :
      Throughout P (front ++ ob :: (as ++ [cb]) ++ ts) (.branch e xs none p :: ss)
  | branchElse {ob cb w ob' cb' : Token} {front as bs ts : List Token} {e : Expr}
      {xs ys ss : List Statement} {p : Position} (hob : ob.kind = .openBrace)
      (hcb : cb.kind = .closeBrace) (hw : w.kind = .elseWord) (hob' : ob'.kind = .openBrace)
      (hcb' : cb'.kind = .closeBrace)
      (hp : P (front ++ ob :: (as ++ [cb]) ++ w :: ob' :: (bs ++ [cb']))
        (.branch e xs (some ys) p))
      (ha : Throughout P as xs) (hb : Throughout P bs ys) (h : Throughout P ts ss) :
      Throughout P (front ++ ob :: (as ++ [cb]) ++ w :: ob' :: (bs ++ [cb']) ++ ts)
        (.branch e xs (some ys) p :: ss)

theorem Simple.isSimple {ls : List Token} {s : Statement} (h : Simple ls s) : s.isSimple := by
  cases h <;> rfl

mutual

/-- The blocks in a statement. -/
def Statement.blocks : Statement → List (List Statement)
  | .declare .. => []
  | .assign .. => []
  | .call .. => []
  | .branch _ thenPart elsePart _ => thenPart :: (innerBlocks thenPart ++ elseBlocks elsePart)

def innerBlocks : List Statement → List (List Statement)
  | [] => []
  | s :: ss => s.blocks ++ innerBlocks ss

def elseBlocks : Option (List Statement) → List (List Statement)
  | none => []
  | some ss => ss :: innerBlocks ss

end

/-- A block with all the blocks in it. -/
def allBlocks (ss : List Statement) : List (List Statement) := ss :: innerBlocks ss

theorem Statement.blocks_of_isSimple {s : Statement} (h : s.isSimple) : s.blocks = [] := by
  cases s with
  | branch => cases h
  | _ => rfl

@[simp] theorem innerBlocks_branch (e : Expr) (xs ss : List Statement) (p : Position) :
    innerBlocks (.branch e xs none p :: ss) = allBlocks xs ++ innerBlocks ss := by
  simp [innerBlocks, Statement.blocks, elseBlocks, allBlocks]

@[simp] theorem innerBlocks_branchElse (e : Expr) (xs ys ss : List Statement) (p : Position) :
    innerBlocks (.branch e xs (some ys) p :: ss) =
      allBlocks xs ++ (allBlocks ys ++ innerBlocks ss) := by
  simp [innerBlocks, Statement.blocks, elseBlocks, allBlocks]

/-- The blocks have tokens of their own among these. -/
def Houses (P : List Token → Statement → Prop) (ts : List Token) (bs : List (List Statement)) :
    Prop :=
  ∀ b ∈ bs, ∃ us : List Token, us.Sublist ts ∧ Throughout P us b

namespace Houses

variable {P : List Token → Statement → Prop} {us ts : List Token} {bs cs : List (List Statement)}

theorem mono (h : Houses P us bs) (hsub : us.Sublist ts) : Houses P ts bs := by
  intro b hb
  obtain ⟨vs, hvs, hall⟩ := h b hb
  exact ⟨vs, hvs.trans hsub, hall⟩

theorem append (hb : Houses P ts bs) (hc : Houses P ts cs) : Houses P ts (bs ++ cs) :=
  List.forall_mem_append.mpr ⟨hb, hc⟩

theorem all {ss : List Statement} (h : Throughout P ts ss) (hin : Houses P ts (innerBlocks ss)) :
    Houses P ts (allBlocks ss) :=
  List.forall_mem_cons.mpr ⟨⟨ts, .refl ts, h⟩, hin⟩

end Houses

namespace Throughout

variable {P : List Token → Statement → Prop} {ts : List Token} {ss : List Statement}

theorem houses (h : Throughout P ts ss) : Houses P ts (allBlocks ss) := by
  have body {front as back : List Token} {ob cb : Token} :
      as.Sublist (front ++ ob :: (as ++ [cb]) ++ back) :=
    have hin : as.Sublist (ob :: (as ++ [cb])) := (List.sublist_append_left as [cb]).cons ob
    (hin.trans (List.sublist_append_right front _)).trans (List.sublist_append_left _ back)
  refine .all h ?_
  induction h with
  | nil => exact fun b hb => nomatch hb
  | empty ht h ih => exact ih.mono (List.sublist_cons_self _ _)
  | simple hs hp ht h ih =>
    rw [innerBlocks, Statement.blocks_of_isSimple hs, List.nil_append]
    exact ih.mono ((List.sublist_cons_self _ _).trans (List.sublist_append_right _ _))
  | branch hob hcb hp ha h iha ih =>
    rw [innerBlocks_branch]
    exact ((Houses.all ha iha).mono body).append (ih.mono (List.sublist_append_right _ _))
  | branchElse hob hcb hw hob' hcb' hp ha hb h iha ihb ih =>
    rw [innerBlocks_branchElse]
    refine ((Houses.all ha iha).mono ?_).append
      (((Houses.all hb ihb).mono ?_).append (ih.mono (List.sublist_append_right _ _)))
    · rw [List.append_assoc]
      exact body
    · rw [List.append_cons]
      exact body

/-- The statements of a block were read from one stretch of tokens after the other. -/
theorem ranges (h : Throughout P ts ss) :
    ∃ rs : List (List Token), rs.flatten.Sublist ts ∧ List.Forall₂ P rs ss := by
  induction h with
  | nil => exact ⟨[], .refl [], .nil⟩
  | empty ht h ih =>
    obtain ⟨rs, hsub, hrs⟩ := ih
    exact ⟨rs, hsub.cons _, hrs⟩
  | simple hs hp ht h ih =>
    obtain ⟨rs, hsub, hrs⟩ := ih
    exact ⟨_ :: rs, (List.Sublist.refl _).append (hsub.cons _), .cons hp hrs⟩
  | branch hob hcb hp ha h iha ih =>
    obtain ⟨rs, hsub, hrs⟩ := ih
    exact ⟨_ :: rs, (List.Sublist.refl _).append hsub, .cons hp hrs⟩
  | branchElse hob hcb hw hob' hcb' hp ha hb h iha ihb ih =>
    obtain ⟨rs, hsub, hrs⟩ := ih
    exact ⟨_ :: rs, (List.Sublist.refl _).append hsub, .cons hp hrs⟩

end Throughout

/-- What holds of all simple statements and of all conditionals holds throughout a block. -/
theorem Block.throughout {P : List Token → Statement → Prop}
    (hsimple : ∀ {ls : List Token} {s : Statement}, Simple ls s → P ls s)
    (hbranch : ∀ {i o c : Token} {cs back : List Token} {e : Expr} {xs : List Statement}
      {ys : Option (List Statement)}, o.IsRaw .openParen → Phrase .sum cs e →
      c.IsRaw .closeParen → P (i :: o :: (cs ++ [c]) ++ back) (.branch e xs ys i.position))
    {ts : List Token} {ss : List Statement} (h : Block ts ss) : Throughout P ts ss := by
  induction h with
  | nil => exact .nil
  | empty ht h ih => exact .empty ht.kind ih
  | simple hs ht h ih => exact .simple hs.isSimple (hsimple hs) ht.kind ih
  | branch hi ho he hc hob ha hcb h iha ih =>
    exact .branch hob.kind hcb.kind (hbranch ho he hc) iha ih
  | branchElse hi ho he hc hob ha hcb hw hob' hb hcb' h iha ihb ih =>
    refine .branchElse hob.kind hcb.kind hw.kind hob'.kind hcb'.kind ?_ iha ihb ih
    rw [List.append_assoc]
    exact hbranch ho he hc

/-! ### Places -/

/-- An expression stands at the first token that opens no group. -/
def Expr.Stands (ts : List Token) (e : Expr) : Prop :=
  (ts.find? fun t => t.kind ≠ .openParen).map Token.position = some e.position

/-- A statement stands at its first token, the name that it declares or assigns to stands at the
token of the name, and every part of its expression stands at its own tokens. -/
def Statement.Stands (us : List Token) (s : Statement) : Prop :=
  us.head?.map Token.position = some s.position ∧
    match s with
    | .declare _ x value _ =>
      us[1]? = some (.identifier x.name x.position) ∧
        ∀ e ∈ value, e.Throughout Expr.Stands (us.drop 5)
    | .assign x e =>
      us[0]? = some (.identifier x.text x.position) ∧ e.Throughout Expr.Stands (us.drop 2)
    | .call _ e _ =>
      ∃ (o c : Token) (vs : List Token), us.tail = o :: (vs ++ [c]) ∧ o.kind = .openParen ∧
        c.kind = .closeParen ∧ e.Throughout Expr.Stands vs
    | .branch e _ _ _ =>
      ∃ (o c : Token) (vs back : List Token), us.tail = o :: (vs ++ [c]) ++ back ∧
        o.kind = .openParen ∧ c.kind = .closeParen ∧ e.Throughout Expr.Stands vs

theorem Expr.Stands.append {us : List Token} {e : Expr} (h : e.Stands us) (vs : List Token) :
    e.Stands (us ++ vs) := by
  rw [Expr.Stands, Option.map_eq_some_iff] at h
  obtain ⟨t, ht, hp⟩ := h
  rw [Expr.Stands, List.find?_append, ht, Option.some_or, Option.map_some, hp]

theorem Expr.stands_cons {t : Token} {us : List Token} {e : Expr} (ht : t.kind ≠ .openParen)
    (hp : t.position = e.position) : e.Stands (t :: us) := by
  rw [Expr.Stands, List.find?_cons_of_pos (by simpa using ht), Option.map_some, hp]

theorem Phrase.stands {l : Level} {ts : List Token} {e : Expr} (h : Phrase l ts e) :
    e.Stands ts := by
  induction h with
  | number x p => exact Expr.stands_cons nofun rfl
  | string s p => exact Expr.stands_cons nofun rfl
  | boolean b p => exact Expr.stands_cons nofun rfl
  | name s p => exact Expr.stands_cons nofun rfl
  | group ho hc h ih =>
    rw [Expr.Stands, List.find?_cons_of_neg (by simp [ho.kind])]
    exact Expr.Stands.append ih _
  | call p hf ho hc h ih => exact Expr.stands_cons nofun rfl
  | operand h ih => exact ih
  | signed p ho h ih => exact Expr.stands_cons nofun rfl
  | factor h ih => exact ih
  | times p ho hl hr ihl ihr => exact Expr.Stands.append ihl _
  | term h ih => exact ih
  | plus p ho hl hr ihl ihr => exact Expr.Stands.append ihl _

theorem Simple.stands {ls : List Token} {s : Statement} (h : Simple ls s) : s.Stands ls := by
  have parts {ts : List Token} {e : Expr} (hp : Phrase .sum ts e) : e.Throughout Expr.Stands ts :=
    hp.throughout Phrase.stands
  cases h with
  | bare q r hd hlet hc => exact ⟨rfl, rfl, nofun⟩
  | declaration q r u hd hc hp =>
    refine ⟨rfl, rfl, fun e he => ?_⟩
    cases he
    exact parts hp
  | call p ho hc hp => exact ⟨rfl, _, _, _, rfl, ho.kind, hc.kind, parts hp⟩
  | assign p q hp => exact ⟨rfl, rfl, parts hp⟩

theorem Block.stands {ts : List Token} {ss : List Statement} (h : Block ts ss) :
    Throughout Statement.Stands ts ss := by
  refine h.throughout Simple.stands fun ho he hc => ?_
  exact ⟨rfl, _, _, _, _, rfl, ho.kind, hc.kind, he.throughout Phrase.stands⟩

/-- The places in an expression. -/
def Expr.places : Expr → List Position
  | .identifier x => [x.position]
  | .typed x => [x.position]
  | .literal _ p => [p]
  | .binary _ left right => left.position :: (left.places ++ right.places)
  | .signed _ inner p => p :: inner.places
  | .call _ argument p => p :: argument.places

/-- The places in a statement, but for those in its blocks. -/
def Statement.places : Statement → List Position
  | .declare _ x value p => p :: x.position :: value.toList.flatMap Expr.places
  | .assign x value => x.position :: value.places
  | .call _ argument p => p :: argument.places
  | .branch condition _ _ p => p :: condition.places

theorem Expr.Stands.position_mem {us : List Token} {e : Expr} (h : e.Stands us) :
    e.position ∈ us.map Token.position := by
  obtain ⟨t, ht, hp⟩ := Option.map_eq_some_iff.mp h
  exact List.mem_map.mpr ⟨t, List.mem_of_find?_eq_some ht, hp⟩

theorem subset_behind (t o : Token) (us back : List Token) : us ⊆ t :: o :: (us ++ back) :=
  List.subset_cons_of_subset t (List.subset_cons_of_subset o (List.subset_append_left us back))

theorem Expr.Throughout.places_subset {us : List Token} {e : Expr}
    (h : e.Throughout Expr.Stands us) : e.places ⊆ us.map Token.position := by
  induction h with
  | @atom t e he hp =>
    have hmem := hp.position_mem
    cases e with
    | identifier x => exact List.cons_subset.mpr ⟨hmem, List.nil_subset _⟩
    | typed x => exact List.cons_subset.mpr ⟨hmem, List.nil_subset _⟩
    | literal l p => exact List.cons_subset.mpr ⟨hmem, List.nil_subset _⟩
    | _ => cases he
  | group ho hc hp h ih =>
    refine List.Subset.trans ih (List.map_subset _ ?_)
    exact List.subset_cons_of_subset _ (List.subset_append_left _ _)
  | call ht ho hc hp h ih =>
    refine List.cons_subset.mpr ⟨hp.position_mem, List.Subset.trans ih (List.map_subset _ ?_)⟩
    exact subset_behind _ _ _ _
  | signed ht hp h ih =>
    refine List.cons_subset.mpr ⟨hp.position_mem, List.Subset.trans ih (List.map_subset _ ?_)⟩
    exact List.subset_cons_self _ _
  | binary ht hp hl hr ihl ihr =>
    refine List.cons_subset.mpr ⟨hp.position_mem, List.append_subset.mpr ⟨?_, ?_⟩⟩
    · exact List.Subset.trans ihl (List.map_subset _ (List.subset_append_left _ _))
    · refine List.Subset.trans ihr (List.map_subset _ ?_)
      exact List.Subset.trans (List.subset_cons_self _ _) (List.subset_append_right _ _)

namespace Statement.Stands

variable {us : List Token} {s : Statement}

theorem eq_cons (h : s.Stands us) : ∃ t ts, us = t :: ts ∧ t.position = s.position := by
  obtain ⟨t, ht, hp⟩ := Option.map_eq_some_iff.mp h.1
  obtain ⟨ts, rfl⟩ := List.head?_eq_some_iff.mp ht
  exact ⟨t, ts, rfl, hp⟩

theorem places_subset (h : s.Stands us) : s.places ⊆ us.map Token.position := by
  obtain ⟨t, ts, rfl, hp⟩ := h.eq_cons
  have hfirst : s.position ∈ (t :: ts).map Token.position := by simp [hp]
  have hparts := h.2
  cases s with
  | declare d x value p =>
    have hname : x.position ∈ (t :: ts).map Token.position :=
      List.mem_map.mpr ⟨_, List.mem_of_getElem? hparts.1, rfl⟩
    refine List.cons_subset.mpr ⟨hfirst, List.cons_subset.mpr ⟨hname, ?_⟩⟩
    intro p hp
    obtain ⟨e, he, hpe⟩ := List.mem_flatMap.mp hp
    have hsub := (hparts.2 e (Option.mem_toList.mp he)).places_subset
    exact List.map_subset _ (List.drop_subset _ _) (hsub hpe)
  | assign x value =>
    refine List.cons_subset.mpr ⟨hfirst, List.Subset.trans hparts.2.places_subset ?_⟩
    exact List.map_subset _ (List.drop_subset _ _)
  | call f argument p =>
    obtain ⟨o, c, vs, htail, -, -, he⟩ := hparts
    have htail : ts = o :: (vs ++ [c]) := htail
    refine List.cons_subset.mpr ⟨hfirst, List.Subset.trans he.places_subset (List.map_subset _ ?_)⟩
    rw [htail]
    exact subset_behind _ _ _ _
  | branch condition thenPart elsePart p =>
    obtain ⟨o, c, vs, back, htail, -, -, he⟩ := hparts
    have htail : ts = o :: (vs ++ [c]) ++ back := htail
    refine List.cons_subset.mpr ⟨hfirst, List.Subset.trans he.places_subset (List.map_subset _ ?_)⟩
    rw [htail, List.cons_append, List.append_assoc]
    exact subset_behind _ _ _ _

end Statement.Stands

section
variable {rs : List (List Token)} {ss : List Statement}

theorem positions_sublist (h : List.Forall₂ Statement.Stands rs ss) :
    (ss.map Statement.position).Sublist (rs.flatten.map Token.position) := by
  induction h with
  | nil => exact .refl []
  | cons hs _ ih =>
    obtain ⟨t, ts, rfl, hp⟩ := hs.eq_cons
    rw [List.map_cons, ← hp, List.flatten_cons, List.map_append, List.map_cons, List.cons_append]
    exact (ih.trans (List.sublist_append_right _ _)).cons_cons _

theorem places_subset (h : List.Forall₂ Statement.Stands rs ss) :
    ∀ s ∈ ss, s.places ⊆ rs.flatten.map Token.position := by
  induction h with
  | nil => exact fun s hs => nomatch hs
  | cons hs _ ih =>
    rw [List.flatten_cons, List.map_append]
    refine List.forall_mem_cons.mpr ⟨?_, fun s hmem => ?_⟩
    · exact List.Subset.trans hs.places_subset (List.subset_append_left _ _)
    · exact List.Subset.trans (ih s hmem) (List.subset_append_right _ _)

end

/-- Every node of a program stands at its tokens. No place in the tree is made up, and the
statements of each block come in the order of the text. -/
theorem parse_stands (ts : List Token) (ss : List Statement) (hc : ∀ t ∈ ts, t.Consistent)
    (h : parse ts = .ok ss) :
    Throughout Statement.Stands (significant ts) ss ∧
    (∀ b ∈ allBlocks ss, ∀ s ∈ b, s.places ⊆ ts.map Token.position) ∧
    ∀ source version : String, tokenize source version = .ok ts →
      ∀ b ∈ allBlocks ss, (b.map Statement.position).Pairwise (· < ·) := by
  have hblock : Block (significant ts) ss :=
    readBlock_sound (fun t ht => hc t (List.mem_of_mem_filter ht)) h
  have hstands := hblock.stands
  have hsignificant : (significant ts).Sublist ts := List.filter_sublist
  have hblocks : ∀ b ∈ allBlocks ss, ∃ rs : List (List Token), rs.flatten.Sublist ts ∧
      List.Forall₂ Statement.Stands rs b := by
    intro b hb
    obtain ⟨us, hsub, hus⟩ := hstands.houses b hb
    obtain ⟨rs, hrs, hall⟩ := hus.ranges
    exact ⟨rs, (hrs.trans hsub).trans hsignificant, hall⟩
  refine ⟨hstands, fun b hb s hs => ?_, fun source version htok b hb => ?_⟩
  · obtain ⟨rs, hrs, hall⟩ := hblocks b hb
    exact List.Subset.trans (places_subset hall s hs) (hrs.map _).subset
  · obtain ⟨rs, hrs, hall⟩ := hblocks b hb
    have hts : (ts.map Token.position).Pairwise (· < ·) :=
      List.pairwise_map.mpr (tokenize_increasing htok)
    exact hts.sublist ((positions_sublist hall).trans (hrs.map _))

/-- The tokens of a conditional on a sum that begins with a group, with a block of two lines. -/
def groupedSum : List Token :=
  [.raw .ifWord "if" ⟨1, 0⟩, .raw .openParen "(" ⟨1, 2⟩, .raw .openParen "(" ⟨1, 3⟩,
    .identifier "a" ⟨1, 4⟩, .raw .closeParen ")" ⟨1, 5⟩, .operator .sum ⟨1, 6⟩,
    .identifier "b" ⟨1, 7⟩, .raw .closeParen ")" ⟨1, 8⟩, .raw .openBrace "\x7b" ⟨1, 9⟩,
    .identifier "x" ⟨1, 10⟩, .operator .equal ⟨1, 11⟩, .operator .subtract ⟨1, 12⟩,
    .raw .openParen "(" ⟨1, 13⟩, .identifier "a" ⟨1, 14⟩, .raw .closeParen ")" ⟨1, 15⟩,
    .raw .semicolon ";" ⟨1, 16⟩, .lineBreak ⟨1, 17⟩, .identifier "y" ⟨2, 0⟩,
    .operator .equal ⟨2, 1⟩, .identifier "x" ⟨2, 2⟩, .raw .semicolon ";" ⟨2, 3⟩,
    .raw .closeBrace "\x7d" ⟨2, 4⟩]

theorem parse_stands_groupedSum :
    tokenize "if((a)+b)\x7bx=-(a);\ny=x;\x7d" "1.1" = .ok groupedSum ∧
      ∃ ss, parse groupedSum = .ok ss ∧ Throughout Statement.Stands (significant groupedSum) ss ∧
        ∀ b ∈ allBlocks ss, (b.map Statement.position).Pairwise (· < ·) ∧
          ∀ s ∈ b, s.places ⊆ groupedSum.map Token.position := by
  have h : tokenize "if((a)+b)\x7bx=-(a);\ny=x;\x7d" "1.1" = .ok groupedSum := by
    decide +kernel
  obtain ⟨ss, hp⟩ := exists_of_isOk (show (parse groupedSum).isOk by decide +kernel)
  obtain ⟨hstands, hplaces, horder⟩ := parse_stands groupedSum ss (by decide) hp
  exact ⟨h, ss, hp, hstands, fun b hb => ⟨horder _ _ h b hb, hplaces b hb⟩⟩

end LetScript
