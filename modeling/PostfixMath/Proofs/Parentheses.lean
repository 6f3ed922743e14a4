-- Few parentheses. In an infix text that stands for a term, an operand needs a group of its own
-- where its category is too loose for its place. A formula has a group there and nowhere else, so
-- no text with the same reading has fewer.
import PostfixMath.Proofs.Nesting

namespace PostfixMath

/-! ## The groups that a term needs -/

/-- How tightly a category binds. -/
def Formula.Category.level : Formula.Category → Nat
  | .sum => 0
  | .product => 1
  | .factor => 2

theorem Operator.level_category (op : Operator) : op.category.level + 1 = op.rank := by
  cases op <;> rfl

theorem Operator.level_tighter (op : Operator) : op.category.tighter.level = op.rank := by
  cases op <;> rfl

namespace Term

open Formula (Category Item Derives)

def category : Term → Category
  | .numeral _ => .factor
  | .binary op _ _ => op.category

/-- The group that a term needs where a category is asked for: one if it is looser. -/
def ownGroup (t : Term) (c : Category) : Nat := if t.category.level < c.level then 1 else 0

/-- The groups that a term needs inside it. -/
def groups : Term → Nat
  | .numeral _ => 0
  | .binary op l r =>
    (l.groups + l.ownGroup op.category) + (r.groups + r.ownGroup op.category.tighter)

theorem ownGroup_le_one (t : Term) (c : Category) : t.ownGroup c ≤ 1 := by
  unfold ownGroup
  split <;> omega

theorem ownGroup_sum (t : Term) : t.ownGroup .sum = 0 := by
  simp [ownGroup, Category.level]

theorem ownGroup_of_category {t : Term} {c : Category} (h : t.category = c) : t.ownGroup c = 0 := by
  simp [ownGroup, h]

theorem ownGroup_product_le (t : Term) : t.ownGroup .product ≤ t.ownGroup .factor := by
  unfold ownGroup
  cases t.category <;> simp [Category.level]

/-- Items that stand for a term where a category is asked for have the groups that it needs. -/
theorem groups_le_count {c : Category} {items : List Item} {t : Term} (h : Derives c items t) :
    t.groups + t.ownGroup c ≤ items.count .opening := by
  induction h with
  | @product is t _ ih =>
    have := t.ownGroup_sum
    omega
  | @factor is t _ ih =>
    have := t.ownGroup_product_le
    omega
  | @add is js s t op hop _ _ ihs iht =>
    have hcat : op.category = .sum := by rcases hop with rfl | rfl <;> rfl
    rw [ownGroup_sum, Nat.add_zero, groups, hcat, List.count_append,
      List.count_cons_of_ne (by simp)]
    exact Nat.add_le_add ihs iht
  | @multiply is js s t op hop _ _ ihs iht =>
    have hcat : op.category = .product := by rcases hop with rfl | rfl <;> rfl
    rw [ownGroup_of_category (t := .binary op s t) hcat, Nat.add_zero, groups, hcat,
      List.count_append, List.count_cons_of_ne (by simp)]
    exact Nat.add_le_add ihs iht
  | numeral value => simp [groups, ownGroup, category]
  | @group is t _ ih =>
    have := t.ownGroup_le_one .factor
    rw [List.count_append, List.count_cons_self]
    omega

end Term

/-! ## The groups that a formula has -/

namespace Expr

open Formula (Category Item Derives)

theorem category_after (e : Expr) (op : Operator) (onRight : Bool) (t : Term) :
    ((e.operands op.rank onRight).after t op).category = op.category := by
  induction e generalizing op onRight t with
  | number value pos =>
    rw [operands_of_not_descends (not_descends_number value pos op.rank onRight),
      Chain.after_single]
    rfl
  | binary o l r pos _ ihr =>
    by_cases hd : (Expr.binary o l r pos).descends op.rank onRight
    · have hrank := ((descends_binary_iff o l r pos op.rank onRight).1 hd).1
      rw [operands_binary hd, Chain.after_join, ← hrank, ihr, Operator.category_eq hrank]
    · rw [operands_of_not_descends hd, Chain.after_single]
      rfl

/-- A formula reads as a term of its own category. -/
theorem category_reassoc (e : Expr) : e.reassoc.category = e.category := by
  cases e with
  | number value pos => rfl
  | binary op l r pos => rw [reassoc_binary, category_after]; rfl

theorem count_wrap (needed : Bool) (items : List Item) :
    (wrap needed items).count .opening = items.count .opening + if needed then 1 else 0 := by
  unfold wrap
  cases needed <;> simp

/-- A left operand stands in parentheses where it needs a group. -/
theorem ownGroup_left (e : Expr) (op : Operator) :
    e.reassoc.ownGroup op.category = if e.needsParens op.rank false then 1 else 0 := by
  unfold Term.ownGroup
  rw [category_reassoc]
  refine if_congr ?_ rfl rfl
  cases e with
  | number value pos =>
    cases op <;> simp [category, Category.level, Operator.category, needsParens]
  | binary o l r pos =>
    rw [needsParens_binary_iff]
    have hlevel := op.level_category
    have hlevel' := o.level_category
    simp only [category, Bool.false_eq_true, false_and, and_false, or_false]
    omega

/-- So does an operand that the chain around it does not take in. -/
theorem ownGroup_operand {e : Expr} {op : Operator} {onRight : Bool}
    (h : ¬ e.descends op.rank onRight) :
    e.reassoc.ownGroup op.category.tighter =
      if e.needsParens op.rank onRight then 1 else 0 := by
  unfold Term.ownGroup
  rw [category_reassoc, op.level_tighter]
  refine if_congr ?_ rfl rfl
  cases e with
  | number value pos =>
    cases op <;> simp [category, Category.level, Operator.rank, needsParens]
  | binary o l r pos =>
    rw [needsParens_binary_iff]
    rw [descends_binary_iff] at h
    have hlevel := o.level_category
    have hops : o = .minus ∨ o = .over ↔ ¬ (o = .plus ∨ o = .times) := by cases o <;> simp
    rw [hops]
    simp only [category]
    constructor
    · intro hlt
      by_cases heq : o.rank = op.rank
      · exact Or.inr ⟨heq, Classical.not_imp.1 fun hop => h ⟨heq, hop⟩⟩
      · exact Or.inl (by omega)
    · omega

theorem groups_operand {e : Expr} {op : Operator} {onRight : Bool}
    (h : e.reassoc.groups = e.formula.count .opening) (hd : ¬ e.descends op.rank onRight)
    (t : Term) :
    ((e.operands op.rank onRight).after t op).groups =
      t.groups + t.ownGroup op.category +
        (wrap (e.needsParens op.rank onRight) e.formula).count .opening := by
  rw [operands_of_not_descends hd, Chain.after_single, Term.groups, ownGroup_operand hd, h,
    count_wrap]

/-- A formula has the groups that its reading needs, on its own and where it goes on with a chain.
As for the reading itself, the second half carries the induction. -/
theorem groups_formula (e : Expr) :
    e.reassoc.groups = e.formula.count .opening ∧
      ∀ (op : Operator) (onRight : Bool) (t : Term),
        ((e.operands op.rank onRight).after t op).groups =
          t.groups + t.ownGroup op.category +
            (wrap (e.needsParens op.rank onRight) e.formula).count .opening := by
  induction e with
  | number value pos =>
    have hself : (Expr.number value pos).reassoc.groups =
      (Expr.number value pos).formula.count .opening := rfl
    exact ⟨hself, fun op onRight t => groups_operand hself (not_descends_number value pos _ _) t⟩
  | binary o l r pos ihl ihr =>
    obtain ⟨hl, hlafter⟩ := ihl
    obtain ⟨_, hrafter⟩ := ihr
    have hself : (Expr.binary o l r pos).reassoc.groups =
        (Expr.binary o l r pos).formula.count .opening := by
      rw [reassoc_binary, hrafter, formula, List.count_append, List.count_cons_of_ne (by simp),
        count_wrap _ l.formula, hl, ownGroup_left]
    refine ⟨hself, fun op onRight t => ?_⟩
    by_cases hd : (Expr.binary o l r pos).descends op.rank onRight
    · have hrank := ((descends_binary_iff o l r pos op.rank onRight).1 hd).1
      have hcat := category_after l op false t
      rw [← Operator.category_eq hrank] at hcat
      have hright := hrafter o true ((l.operands op.rank false).after t op)
      rw [hrank, Term.ownGroup_of_category hcat, hlafter] at hright
      have hbare : wrap false (Expr.binary o l r pos).formula = (Expr.binary o l r pos).formula :=
        rfl
      rw [operands_binary hd, Chain.after_join, needsParens_of_descends hd, hright, hbare, formula,
        List.count_append, List.count_cons_of_ne (by simp), hrank]
      omega
    · exact groups_operand hself hd t

/-- The inline math of an expression of numerals has no more groups than any items with the same
reading. So where one of its groups loses its parentheses, what is left still has a reading, but
another one. -/
theorem latex_groups_minimal (e : Expr) (h : e.Numerals) :
    ∃ body, e.latex = "$" ++ body ++ "$" ∧ Formula.items? body = some e.formula ∧
      (∀ u, Formula.Reads body u ↔ u = e.reassoc) ∧
      (∀ others, Derives .sum others e.reassoc →
        e.formula.count .opening ≤ others.count .opening ∧
          e.formula.count .closing ≤ others.count .closing) ∧
      ∀ before inner after, e.formula = before ++ .opening :: inner ++ .closing :: after →
        Balanced .opening .closing inner →
          ∃ v, v ≠ e.reassoc ∧
            ∀ w, Formula.Reads (Formula.text (before ++ inner ++ after)) w ↔ w = v := by
  have hderives := (derives_formula e).1.to_sum
  have hwords := isWord_of_mem_formula h
  have hleast : ∀ others, Derives .sum others e.reassoc →
      e.formula.count .opening ≤ others.count .opening := by
    intro others hothers
    rw [← (groups_formula e).1]
    exact Nat.le_trans (Nat.le_add_right _ _) (Term.groups_le_count hothers)
  refine ⟨_, rfl, Formula.items?_text e.formula_ne_nil hwords, reads_formula_iff h, ?_, ?_⟩
  · intro others hothers
    rw [hderives.balanced.equal, hothers.balanced.equal]
    exact ⟨hleast others hothers, hleast others hothers⟩
  · intro before inner after heq hb
    rw [heq] at hderives hwords hleast
    obtain ⟨v, hv⟩ := Formula.exists_derives_without_group hderives hb
    refine ⟨v, ?_, Formula.reads_text_iff hv.ne_nil (fun item hitem => hwords item ?_) hv⟩
    · rintro rfl
      have := hleast _ hv
      rw [List.count_append, List.count_append, List.count_append, List.count_append,
        List.count_cons_self, List.count_cons_of_ne (by simp)] at this
      omega
    · rw [List.mem_append, List.mem_append] at hitem
      rcases hitem with (hitem | hitem) | hitem <;> simp [hitem]

/-- A difference that is added needs its group, and so does the sum that is multiplied. -/
theorem latex_groups_minimal_nested :
    let number := fun text => Expr.number text default
    let e := Expr.binary .times (number "2") (.binary .plus (number "-1")
      (.binary .minus (number "4") (number "0.5") default) default) default
    e.Numerals ∧ e.latex = "$2 \\times ( -1 + ( 4 - 0.5 ) )$" ∧
      (∀ others, Derives .sum others e.reassoc → 2 ≤ others.count .opening) ∧
      ∃ v, v ≠ e.reassoc ∧ ∀ w, Formula.Reads "2 \\times ( -1 + 4 - 0.5 )" w ↔ w = v := by
  intro number e
  have hn : e.Numerals := by decide
  obtain ⟨body, _, _, _, hleast, hgroup⟩ := latex_groups_minimal e hn
  refine ⟨hn, by decide +kernel, fun others hothers => (hleast others hothers).1, ?_⟩
  refine hgroup [.numeral "2", .operator .times, .opening, .numeral "-1", .operator .plus]
    [.numeral "4", .operator .minus, .numeral "0.5"] [.closing] rfl ⟨rfl, ?_⟩
  intro front back heq
  have hnone := congrArg (List.count .closing) heq
  rw [List.count_append] at hnone
  have : List.count Item.closing [.numeral "4", .operator .minus, .numeral "0.5"] = 0 := rfl
  omega

end Expr

end PostfixMath
