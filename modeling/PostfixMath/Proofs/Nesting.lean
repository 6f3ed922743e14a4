-- Groups inside groups. The reader of formulas finds a term exactly where the grammar has one, and
-- whether it finds any depends only on how many groups are open and whether an operand comes
-- next. So a formula can still be read when the two parentheses of a group are taken away.
import PostfixMath.Proofs.Reassociation

namespace PostfixMath

/-! ## Balance -/

/-- Whether `shut` closes in a list what `start` opens: each one is closed, and not before it is
opened. -/
structure Balanced {α : Type} [BEq α] (start shut : α) (xs : List α) : Prop where
  equal : xs.count shut = xs.count start
  opened : ∀ front back, xs = front ++ back → front.count shut ≤ front.count start

namespace Formula

/-! ## What the reader finds is a reading -/

/-- Whether items are what waits for its right operand: nothing, or a left operand of the
category and its operator. -/
def Waits (c : Category) : Option (Term × Operator) → List Item → Prop
  | none, is => is = []
  | some (t, op), is => ∃ js, is = js ++ [.operator op] ∧ op.category = c ∧ Derives c js t

theorem Waits.join {c : Category} {w : Option (Term × Operator)} {is js : List Item} {t : Term}
    (h : Waits c w is) (ht : Derives c.tighter js t) : Derives c (is ++ js) (Pending.join w t) := by
  cases w with
  | none =>
    have hnil : is = [] := h
    rw [hnil]
    exact ht.loosen
  | some left =>
    obtain ⟨ks, rfl, rfl, hs⟩ := h
    have := hs.link left.2 ht
    rwa [List.append_assoc, List.singleton_append]

namespace Pending

/-- Whether items are what waits inside a group. -/
def Spells (p : Pending) (items : List Item) : Prop :=
  ∃ is js, items = is ++ js ∧ Waits .sum p.sum is ∧ Waits .product p.product js

theorem spells_nil : Spells ⟨none, none⟩ [] := ⟨[], [], rfl, rfl, rfl⟩

variable {p : Pending} {is js : List Item} {t : Term}

theorem Spells.close (h : p.Spells is) (ht : Derives .factor js t) :
    Derives .sum (is ++ js) (p.close t) := by
  obtain ⟨sum, product, rfl, hsum, hproduct⟩ := h
  rw [List.append_assoc]
  exact hsum.join (hproduct.join ht)

theorem Spells.extend (h : p.Spells is) (ht : Derives .factor js t) (op : Operator) :
    (p.extend t op).Spells (is ++ js ++ [.operator op]) := by
  unfold Pending.extend
  rcases op.category_cases with ⟨hop, hcat⟩ | ⟨hop, hcat⟩
  · have hrank : op.rank = 1 := by rcases hop with rfl | rfl <;> rfl
    rw [if_pos hrank]
    exact ⟨_, [], by simp, ⟨is ++ js, rfl, hcat, h.close ht⟩, rfl⟩
  · have hrank : op.rank ≠ 1 := by rcases hop with rfl | rfl <;> decide
    rw [if_neg hrank]
    obtain ⟨sum, product, rfl, hsum, hproduct⟩ := h
    exact ⟨sum, product ++ js ++ [.operator op], by simp, hsum,
      ⟨product ++ js, rfl, hcat, hproduct.join ht⟩⟩

end Pending

/-- Whether items are the starts of the groups that are open, the innermost last. -/
def Opened : List Pending → List Item → Prop
  | [], is => is = []
  | p :: outer, is => ∃ front inner, is = front ++ inner ++ [.opening] ∧ Opened outer front ∧
      p.Spells inner

/-- What the reader finds is a reading of all items, those before it and those it goes over. -/
theorem derives_of_read (items : List Item) (t : Term) :
    (∀ outer p front inner, Opened outer front → p.Spells inner →
      readOperand outer p items = some t → Derives .sum (front ++ inner ++ items) t) ∧
    ∀ outer p u front inner js, Opened outer front → p.Spells inner → Derives .factor js u →
      readOperator outer p u items = some t → Derives .sum (front ++ inner ++ js ++ items) t := by
  induction items with
  | nil =>
    constructor
    · intro outer p front inner _ _ hread
      cases hread
    · intro outer p u front inner js houter hp hu hread
      cases outer with
      | nil =>
        have hfront : front = [] := houter
        have hterm : p.close u = t := Option.some.inj hread
        rw [← hterm, hfront, List.nil_append, List.append_nil]
        exact hp.close hu
      | cons q outer => cases hread
  | cons item items ih =>
    obtain ⟨ihOperand, ihOperator⟩ := ih
    constructor
    · intro outer p front inner houter hp hread
      cases item with
      | numeral value =>
        have := ihOperator outer p _ front inner _ houter hp (.numeral value) hread
        rwa [List.append_assoc, List.singleton_append] at this
      | opening =>
        have := ihOperand (p :: outer) ⟨none, none⟩ (front ++ inner ++ [.opening]) []
          ⟨front, inner, rfl, houter, hp⟩ Pending.spells_nil hread
        rwa [List.append_nil, List.append_assoc, List.singleton_append] at this
      | operator op => cases hread
      | closing => cases hread
    · intro outer p u front inner js houter hp hu hread
      cases item with
      | operator op =>
        have := ihOperand outer _ front _ houter (hp.extend hu op) hread
        simpa using this
      | closing =>
        cases outer with
        | nil => cases hread
        | cons q outer =>
          obtain ⟨front', inner', rfl, houter', hq⟩ := houter
          have := ihOperator outer q _ front' inner' _ houter' hq (hp.close hu).group hread
          simpa using this
      | numeral value => cases hread
      | opening => cases hread

/-- The term that items read as. -/
def read (items : List Item) : Option Term := readOperand [] ⟨none, none⟩ items

theorem read_eq_some_iff (items : List Item) (t : Term) :
    read items = some t ↔ Derives .sum items t := by
  constructor
  · intro h
    exact (derives_of_read items t).1 [] _ [] [] rfl Pending.spells_nil h
  · intro h
    obtain ⟨p, f, hf, hread⟩ := h.found [] []
    rw [List.append_nil, readOperator] at hread
    rw [read, hread, ← hf]
    rfl

theorem Derives.ne_nil {items : List Item} {t : Term} (h : Derives .sum items t) : items ≠ [] := by
  rintro rfl
  have := (read_eq_some_iff [] t).2 h
  cases this

/-! ## What the reader looks at -/

/-- How far a reading is: how many groups are open, and whether an operand was just read. -/
structure Stage where
  depth : Nat
  ready : Bool
deriving DecidableEq

namespace Stage

def next : Stage → Item → Option Stage
  | ⟨d, false⟩, .numeral _ => some ⟨d, true⟩
  | ⟨d, false⟩, .opening => some ⟨d + 1, false⟩
  | ⟨d, true⟩, .operator _ => some ⟨d, false⟩
  | ⟨d + 1, true⟩, .closing => some ⟨d, true⟩
  | _, _ => none

def run (s : Stage) (items : List Item) : Option Stage := items.foldlM next s

theorem run_cons (s : Stage) (item : Item) (items : List Item) :
    s.run (item :: items) = (s.next item).bind fun s' => s'.run items := rfl

theorem run_append {s u : Stage} {as bs : List Item} :
    s.run (as ++ bs) = some u ↔ ∃ m, s.run as = some m ∧ m.run bs = some u := by
  unfold run
  rw [List.foldlM_append]
  exact Option.bind_eq_some_iff

theorem run_cons_eq_some {s u : Stage} {item : Item} {items : List Item} :
    s.run (item :: items) = some u ↔ ∃ m, s.next item = some m ∧ m.run items = some u := by
  rw [run_cons]
  exact Option.bind_eq_some_iff

end Stage

/-- The reader goes through its stages: it ends with a term where these end with an operand and
no open group. -/
theorem isSome_read (items : List Item) :
    (∀ outer p, (readOperand outer p items).isSome ↔
      Stage.run ⟨outer.length, false⟩ items = some ⟨0, true⟩) ∧
    ∀ outer p t, (readOperator outer p t items).isSome ↔
      Stage.run ⟨outer.length, true⟩ items = some ⟨0, true⟩ := by
  induction items with
  | nil =>
    constructor
    · intro outer p
      simp [readOperand, Stage.run]
    · intro outer p t
      cases outer <;> simp [readOperator, Stage.run]
  | cons item items ih =>
    obtain ⟨ihOperand, ihOperator⟩ := ih
    constructor
    · intro outer p
      rw [Stage.run_cons]
      cases item with
      | numeral value => exact ihOperator outer p _
      | opening => exact ihOperand (p :: outer) ⟨none, none⟩
      | operator op => simp [readOperand, Stage.next]
      | closing => simp [readOperand, Stage.next]
    · intro outer p t
      rw [Stage.run_cons]
      cases item with
      | operator op => exact ihOperand outer _
      | closing =>
        cases outer with
        | nil => simp [readOperator, Stage.next]
        | cons q outer => exact ihOperator outer q _
      | numeral value => simp [readOperator, Stage.next]
      | opening => simp [readOperator, Stage.next]

theorem exists_derives_iff (items : List Item) :
    (∃ t, Derives .sum items t) ↔ Stage.run ⟨0, false⟩ items = some ⟨0, true⟩ := by
  have hsome : (read items).isSome ↔ Stage.run ⟨0, false⟩ items = some ⟨0, true⟩ :=
    (isSome_read items).1 [] ⟨none, none⟩
  rw [← hsome, Option.isSome_iff_exists]
  exact exists_congr fun t => (read_eq_some_iff items t).symm

/-! ## A group without its parentheses -/

namespace Stage

/-- All that one item can do. -/
theorem next_cases {s m : Stage} {item : Item} (h : s.next item = some m) :
    ∃ d, (∃ value, item = .numeral value ∧ s = ⟨d, false⟩ ∧ m = ⟨d, true⟩) ∨
      (item = .opening ∧ s = ⟨d, false⟩ ∧ m = ⟨d + 1, false⟩) ∨
      (∃ op, item = .operator op ∧ s = ⟨d, true⟩ ∧ m = ⟨d, false⟩) ∨
      (item = .closing ∧ s = ⟨d + 1, true⟩ ∧ m = ⟨d, true⟩) := by
  unfold next at h
  split at h
  · exact ⟨_, Or.inl ⟨_, rfl, rfl, (Option.some.inj h).symm⟩⟩
  · exact ⟨_, Or.inr (Or.inl ⟨rfl, rfl, (Option.some.inj h).symm⟩)⟩
  · exact ⟨_, Or.inr (Or.inr (Or.inl ⟨_, rfl, rfl, (Option.some.inj h).symm⟩))⟩
  · exact ⟨_, Or.inr (Or.inr (Or.inr ⟨rfl, rfl, (Option.some.inj h).symm⟩))⟩
  · cases h

/-- The groups that are open at the end are those open at the start and those opened since, less
those closed. -/
theorem depth_of_run {s u : Stage} {items : List Item} (h : s.run items = some u) :
    u.depth + items.count .closing = s.depth + items.count .opening := by
  induction items generalizing s with
  | nil =>
    have hsame : s = u := Option.some.inj h
    rw [hsame]
    rfl
  | cons item items ih =>
    obtain ⟨m, hnext, hrun⟩ := run_cons_eq_some.1 h
    have hrest := ih hrun
    rw [List.count_cons, List.count_cons]
    obtain ⟨d, ⟨value, rfl, rfl, rfl⟩ | ⟨rfl, rfl, rfl⟩ | ⟨op, rfl, rfl, rfl⟩ | ⟨rfl, rfl, rfl⟩⟩ :=
      next_cases hnext
    all_goals
      simp only [beq_iff_eq, reduceCtorEq, if_true, if_false] at hrest ⊢
      omega

/-- Items that close at most `k` groups more than they open go the same way from every depth that
has so many. -/
theorem run_from {s u : Stage} {items : List Item} {k : Nat} (h : s.run items = some u)
    (hk : ∀ front back, items = front ++ back → front.count .closing ≤ front.count .opening + k)
    {d : Nat} (hd : k ≤ d) : ∃ d', run ⟨d, s.ready⟩ items = some ⟨d', u.ready⟩ := by
  induction items generalizing s k d with
  | nil =>
    have hsame : s = u := Option.some.inj h
    exact ⟨d, by rw [hsame]; rfl⟩
  | cons item items ih =>
    obtain ⟨m, hnext, hrun⟩ := run_cons_eq_some.1 h
    have hrest : ∀ front back, items = front ++ back →
        (item :: front).count .closing ≤ (item :: front).count .opening + k := by
      intro front back heq
      exact hk (item :: front) back (by rw [heq, List.cons_append])
    obtain ⟨e, ⟨value, rfl, rfl, rfl⟩ | ⟨rfl, rfl, rfl⟩ | ⟨op, rfl, rfl, rfl⟩ | ⟨rfl, rfl, rfl⟩⟩ :=
      next_cases hnext
    · exact ih hrun (by simpa using hrest) hd
    · refine ih hrun (k := k + 1) (fun front back heq => ?_) (Nat.succ_le_succ hd)
      have := hrest front back heq
      rw [List.count_cons_self, List.count_cons_of_ne (by simp)] at this
      omega
    · exact ih hrun (by simpa using hrest) hd
    · have hone := hrest [] items rfl
      obtain ⟨d, rfl⟩ : ∃ d', d = d' + 1 := ⟨d - 1, by simp at hone; omega⟩
      refine ih hrun (k := k - 1) (fun front back heq => ?_) (by omega)
      have := hrest front back heq
      rw [List.count_cons_self, List.count_cons_of_ne (by simp)] at this
      omega

theorem next_opening {s m : Stage} (h : s.next .opening = some m) :
    s = ⟨s.depth, false⟩ ∧ m = ⟨s.depth + 1, false⟩ := by
  obtain ⟨d, ⟨_, hitem, _⟩ | ⟨_, rfl, rfl⟩ | ⟨_, hitem, _⟩ | ⟨hitem, _⟩⟩ := next_cases h
  · cases hitem
  · exact ⟨rfl, rfl⟩
  · cases hitem
  · cases hitem

theorem next_closing {s m : Stage} (h : s.next .closing = some m) :
    s = ⟨m.depth + 1, true⟩ ∧ m = ⟨m.depth, true⟩ := by
  obtain ⟨d, ⟨_, hitem, _⟩ | ⟨hitem, _⟩ | ⟨_, hitem, _⟩ | ⟨_, rfl, rfl⟩⟩ := next_cases h
  · cases hitem
  · cases hitem
  · cases hitem
  · exact ⟨rfl, rfl⟩

/-- A group goes the same way without its parentheses. -/
theorem run_without_group {s u : Stage} {before inner after : List Item}
    (h : s.run (before ++ .opening :: inner ++ .closing :: after) = some u)
    (hb : Balanced .opening .closing inner) : s.run (before ++ inner ++ after) = some u := by
  obtain ⟨shut, hgroup, htail⟩ := run_append.1 h
  obtain ⟨start, hbefore, hopened⟩ := run_append.1 hgroup
  obtain ⟨first, hopening, hinner⟩ := run_cons_eq_some.1 hopened
  obtain ⟨last, hclosing, hafter⟩ := run_cons_eq_some.1 htail
  obtain ⟨hstart, rfl⟩ := next_opening hopening
  obtain ⟨rfl, hlast⟩ := next_closing hclosing
  -- The group comes back to the depth it was opened at, so it also does without its own depth.
  have hdepth := depth_of_run hinner
  obtain ⟨d, hrun⟩ := run_from hinner (k := 0) hb.opened (Nat.zero_le start.depth)
  have hdepth' := depth_of_run hrun
  have hd : d = last.depth := by
    have := hb.equal
    simp only at hdepth hdepth'
    omega
  rw [hstart] at hbefore
  rw [hd, ← hlast] at hrun
  exact run_append.2 ⟨last, run_append.2 ⟨_, hbefore, hrun⟩, hafter⟩

end Stage

/-- The parentheses of items that can be read are balanced. -/
theorem Derives.balanced {items : List Item} {t : Term} (h : Derives .sum items t) :
    Balanced .opening .closing items := by
  have hrun := (exists_derives_iff items).1 ⟨t, h⟩
  constructor
  · simpa using Stage.depth_of_run hrun
  · rintro front back rfl
    obtain ⟨m, hfront, _⟩ := Stage.run_append.1 hrun
    have := Stage.depth_of_run hfront
    simp only at this
    omega

/-- Items that can be read can still be read when a group in them loses its parentheses. -/
theorem exists_derives_without_group {before inner after : List Item} {t : Term}
    (h : Derives .sum (before ++ .opening :: inner ++ .closing :: after) t)
    (hb : Balanced .opening .closing inner) : ∃ u, Derives .sum (before ++ inner ++ after) u := by
  rw [exists_derives_iff]
  exact Stage.run_without_group ((exists_derives_iff _).1 ⟨t, h⟩) hb

end Formula

end PostfixMath
