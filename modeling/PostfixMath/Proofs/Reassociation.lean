-- How a formula reads back. Where a right operand has lost its parentheses, its operands join
-- the chain of operands around it, and the chain is read from the left. So the formula of an
-- expression reads as the expression with its chains folded anew.
import PostfixMath.Proofs.Infix

namespace PostfixMath

/-! ## Chains -/

/-- Operands with the operators between them, in infix order. -/
structure Chain where
  head : Term
  links : List (Operator × Term)

namespace Chain

def single (t : Term) : Chain := ⟨t, []⟩

/-- Two chains with an operator between them. -/
def join (a : Chain) (op : Operator) (b : Chain) : Chain :=
  ⟨a.head, a.links ++ (op, b.head) :: b.links⟩

/-- A term with one more operand on its right. -/
def attach (t : Term) (link : Operator × Term) : Term := .binary link.1 t link.2

/-- The term of a chain, folded from the left. -/
def fold (c : Chain) : Term := c.links.foldl attach c.head

/-- The fold of a chain that goes on after a term and an operator. -/
def after (c : Chain) (t : Term) (op : Operator) : Term :=
  c.links.foldl attach (.binary op t c.head)

theorem fold_single (t : Term) : (single t).fold = t := rfl

theorem after_single (s t : Term) (op : Operator) : (single t).after s op = .binary op s t := rfl

theorem fold_join (a b : Chain) (op : Operator) : (a.join op b).fold = b.after a.fold op := by
  simp [fold, join, after, attach]

theorem after_join (a b : Chain) (t : Term) (op o : Operator) :
    (a.join o b).after t op = b.after (a.after t op) o := by
  simp [join, after, attach]

end Chain

namespace Expr

/-- Whether the chain of an operator of this rank goes on into an operand: the operand has the
same rank and stands without parentheses. -/
def descends (child : Expr) (rank : Nat) (onRight : Bool) : Bool :=
  child.operator?.any (fun op => op.rank == rank) && !child.needsParens rank onRight

/-- The chain of an expression at its own rank. The operands that it does not go into are
folded on their own. -/
def chain : Expr → Chain
  | .number value _ => .single (.numeral value)
  | .binary op left right _ =>
    (if left.descends op.rank false then left.chain else .single left.chain.fold).join op
      (if right.descends op.rank true then right.chain else .single right.chain.fold)

/-- An expression with all of its chains folded from the left. -/
def reassoc (e : Expr) : Term := e.chain.fold

/-- What an operand is to the chain of an operator of this rank. -/
def operands (e : Expr) (rank : Nat) (onRight : Bool) : Chain :=
  if e.descends rank onRight then e.chain else .single e.reassoc

theorem chain_binary (op : Operator) (l r : Expr) (pos : Position) :
    (Expr.binary op l r pos).chain = (l.operands op.rank false).join op (r.operands op.rank true) :=
  rfl

theorem operands_fold (e : Expr) (rank : Nat) (onRight : Bool) :
    (e.operands rank onRight).fold = e.reassoc := by
  unfold operands
  split
  · rfl
  · rw [Chain.fold_single]

theorem operands_of_not_descends {e : Expr} {rank : Nat} {onRight : Bool}
    (h : ¬ e.descends rank onRight) : e.operands rank onRight = .single e.reassoc := if_neg h

theorem operands_of_descends {e : Expr} {rank : Nat} {onRight : Bool}
    (h : e.descends rank onRight) : e.operands rank onRight = e.chain := if_pos h

theorem reassoc_binary (op : Operator) (l r : Expr) (pos : Position) :
    (Expr.binary op l r pos).reassoc = (r.operands op.rank true).after l.reassoc op := by
  rw [reassoc, chain_binary, Chain.fold_join, operands_fold]

theorem needsParens_of_descends {e : Expr} {rank : Nat} {onRight : Bool}
    (h : e.descends rank onRight) : e.needsParens rank onRight = false := by
  unfold descends at h
  simpa using (Bool.and_eq_true_iff.1 h).2

theorem not_descends_number (value : String) (pos : Position) (rank : Nat) (onRight : Bool) :
    ¬ (Expr.number value pos).descends rank onRight := by
  simp [descends, operator?]

theorem needsParens_binary_iff (op : Operator) (l r : Expr) (pos : Position) (rank : Nat)
    (onRight : Bool) :
    (Expr.binary op l r pos).needsParens rank onRight ↔
      op.rank < rank ∨ (op.rank = rank ∧ onRight ∧ (op = .minus ∨ op = .over)) := by
  unfold needsParens
  by_cases h : op.rank < rank
  · simp [h]
  · have hlt : ¬ (op.rank : Int) < rank := by omega
    simp only [hlt, if_false, h, false_or, Bool.and_eq_true, decide_eq_true_eq, Int.natCast_inj,
      Bool.or_eq_true, beq_iff_eq, and_assoc]

theorem descends_binary_iff (op : Operator) (l r : Expr) (pos : Position) (rank : Nat)
    (onRight : Bool) :
    (Expr.binary op l r pos).descends rank onRight ↔
      op.rank = rank ∧ (onRight → op = .plus ∨ op = .times) := by
  have hneeds := needsParens_binary_iff op l r pos rank onRight
  have hops : op = .minus ∨ op = .over ↔ ¬ (op = .plus ∨ op = .times) := by cases op <;> simp
  rw [hops] at hneeds
  unfold descends
  rw [Bool.and_eq_true, Bool.not_eq_true', ← Bool.not_eq_true, hneeds]
  simp only [operator?, Option.any_some, beq_iff_eq]
  constructor
  · rintro ⟨hrank, hnot⟩
    refine ⟨hrank, fun hright => ?_⟩
    by_contra hop
    exact hnot (Or.inr ⟨hrank, hright, hop⟩)
  · rintro ⟨hrank, hop⟩
    refine ⟨hrank, ?_⟩
    rintro (hlt | ⟨_, hright, hnot⟩)
    · omega
    · exact hnot (hop hright)

theorem operands_binary {op : Operator} {l r : Expr} {pos : Position} {rank : Nat} {onRight : Bool}
    (h : (Expr.binary op l r pos).descends rank onRight) :
    (Expr.binary op l r pos).operands rank onRight =
      (l.operands rank false).join op (r.operands rank true) := by
  have hrank := ((descends_binary_iff op l r pos rank onRight).1 h).1
  rw [operands_of_descends h, chain_binary, hrank]

end Expr

/-! ## The formula derives the folded chains -/

/-- The category in which an operator joins two operands. -/
def Operator.category : Operator → Formula.Category
  | .plus | .minus => .sum
  | .times | .over => .product

def Formula.Category.tighter : Formula.Category → Formula.Category
  | .sum => .product
  | .product | .factor => .factor

theorem Operator.category_cases (op : Operator) :
    ((op = .plus ∨ op = .minus) ∧ op.category = .sum) ∨
      ((op = .times ∨ op = .over) ∧ op.category = .product) := by
  cases op <;> simp [category]

theorem Operator.category_eq {op o : Operator} (h : op.rank = o.rank) :
    op.category = o.category := by
  cases op <;> cases o <;> simp_all [rank, category]

theorem Operator.tighter_category {op o : Operator} (h : op.rank < o.rank) :
    op.category.tighter = o.category := by
  cases op <;> cases o <;> simp_all [rank, category, Formula.Category.tighter]

namespace Formula.Derives

theorem loosen {c : Category} {is : List Item} {t : Term} (h : Derives c.tighter is t) :
    Derives c is t := by
  cases c with
  | sum => exact h.product
  | product => exact h.factor
  | factor => exact h

theorem of_factor {is : List Item} {t : Term} (h : Derives .factor is t) (c : Category) :
    Derives c is t := by
  cases c with
  | sum => exact h.factor.product
  | product => exact h.factor
  | factor => exact h

theorem to_sum {c : Category} {is : List Item} {t : Term} (h : Derives c is t) :
    Derives .sum is t := by
  cases c with
  | sum => exact h
  | product => exact h.product
  | factor => exact h.factor.product

theorem of_rank_le {op o : Operator} {is : List Item} {t : Term} (hle : op.rank ≤ o.rank)
    (h : Derives o.category is t) : Derives op.category is t := by
  rcases Nat.eq_or_lt_of_le hle with heq | hlt
  · rwa [Operator.category_eq heq]
  · apply loosen
    rwa [Operator.tighter_category hlt]

theorem link {is js : List Item} {s t : Term} (op : Operator) (hs : Derives op.category is s)
    (ht : Derives op.category.tighter js t) :
    Derives op.category (is ++ .operator op :: js) (.binary op s t) := by
  rcases op.category_cases with ⟨hop, hcat⟩ | ⟨hop, hcat⟩
  · rw [hcat] at hs ht ⊢
    exact .add op hop hs ht
  · rw [hcat] at hs ht ⊢
    exact .multiply op hop hs ht

end Formula.Derives

namespace Expr

open Formula (Item Derives)

def category : Expr → Formula.Category
  | .number _ _ => .factor
  | .binary op _ _ _ => op.category

/-- In parentheses an operand has every category, so only the bare one has to be looked at. -/
theorem derives_wrap {e : Expr} {c : Formula.Category} {needed : Bool}
    (h : Derives e.category e.formula e.reassoc)
    (hbare : ¬ needed → Derives c e.formula e.reassoc) :
    Derives c (wrap needed e.formula) e.reassoc := by
  unfold wrap
  split
  · exact h.to_sum.group.of_factor c
  · rename_i hneeded
    exact hbare hneeded

/-- An operand that is not part of the chain around it is a right operand on its own. -/
theorem derives_operand {e : Expr} {op : Operator} {onRight : Bool}
    (h : Derives e.category e.formula e.reassoc) (hd : ¬ e.descends op.rank onRight) :
    Derives op.category.tighter (wrap (e.needsParens op.rank onRight) e.formula) e.reassoc := by
  refine derives_wrap h fun hp => ?_
  cases e with
  | number value pos => exact h.of_factor _
  | binary o l r pos =>
    -- Only a product in a sum is left.
    have hne : o.rank ≠ op.rank := by
      intro heq
      simp [descends, operator?, heq, hp] at hd
    rw [needsParens_binary_iff] at hp
    rw [Operator.tighter_category (by omega : op.rank < o.rank)]
    exact h

theorem derives_left {e : Expr} (op : Operator) (h : Derives e.category e.formula e.reassoc) :
    Derives op.category (wrap (e.needsParens op.rank false) e.formula) e.reassoc := by
  refine derives_wrap h fun hp => ?_
  cases e with
  | number value pos => exact h.of_factor _
  | binary o l r pos =>
    rw [needsParens_binary_iff] at hp
    exact Derives.of_rank_le (by omega : op.rank ≤ o.rank) h

/-- The formula of an expression derives its folded chains, on its own and where it goes on with
a chain. The second half carries the induction: a right operand without parentheses is taken in
operand by operand. -/
theorem derives_formula (e : Expr) :
    Derives e.category e.formula e.reassoc ∧
      ∀ (op : Operator) (onRight : Bool) (is : List Item) (t : Term), Derives op.category is t →
        Derives op.category
          (is ++ .operator op :: wrap (e.needsParens op.rank onRight) e.formula)
          ((e.operands op.rank onRight).after t op) := by
  induction e with
  | number value pos =>
    have hself : Derives (Expr.number value pos).category (Expr.number value pos).formula
      (Expr.number value pos).reassoc := .numeral value
    refine ⟨hself, fun op onRight is t ht => ?_⟩
    have hd := not_descends_number value pos op.rank onRight
    rw [operands_of_not_descends hd, Chain.after_single]
    exact ht.link op (derives_operand hself hd)
  | binary o l r pos ihl ihr =>
    obtain ⟨hl, hlafter⟩ := ihl
    obtain ⟨hr, hrafter⟩ := ihr
    have hself : Derives (Expr.binary o l r pos).category (Expr.binary o l r pos).formula
        (Expr.binary o l r pos).reassoc := by
      rw [reassoc_binary]
      exact hrafter o true _ _ (derives_left o hl)
    refine ⟨hself, fun op onRight is t ht => ?_⟩
    by_cases hd : (Expr.binary o l r pos).descends op.rank onRight
    · have hrank := ((descends_binary_iff o l r pos op.rank onRight).1 hd).1
      have hparens := needsParens_of_descends hd
      have hleft := hlafter op false is t ht
      rw [← Operator.category_eq hrank, ← hrank] at hleft ⊢
      have hright := hrafter o true _ _ hleft
      rw [← hrank] at hd hparens
      rw [operands_binary hd, Chain.after_join, hparens, wrap, if_neg (by simp), formula]
      rwa [List.append_assoc, List.cons_append] at hright
    · rw [operands_of_not_descends hd, Chain.after_single]
      exact ht.link op (derives_operand hself hd)

/-! ## Every formula of numerals has one reading -/

def Numerals : Expr → Prop
  | .number value _ => IsNumeral value
  | .binary _ left right _ => left.Numerals ∧ right.Numerals

instance decidableNumerals : (e : Expr) → Decidable e.Numerals
  | .number value _ => inferInstanceAs (Decidable (IsNumeral value))
  | .binary _ left right _ =>
    have := decidableNumerals left
    have := decidableNumerals right
    inferInstanceAs (Decidable (left.Numerals ∧ right.Numerals))

theorem isWord_of_mem_wrap {needed : Bool} {items : List Item} (h : ∀ item ∈ items, item.IsWord) :
    ∀ item ∈ wrap needed items, item.IsWord := by
  intro item hi
  unfold wrap at hi
  split at hi
  · rw [List.cons_append, List.mem_cons, List.mem_append, List.mem_singleton] at hi
    rcases hi with rfl | hi | rfl
    · trivial
    · exact h item hi
    · trivial
  · exact h item hi

theorem isWord_of_mem_formula {e : Expr} (h : e.Numerals) : ∀ item ∈ e.formula, item.IsWord := by
  induction e with
  | number value pos =>
    intro item hi
    rw [formula, List.mem_singleton] at hi
    subst hi
    exact h
  | binary op l r pos ihl ihr =>
    intro item hi
    rw [formula, List.mem_append, List.mem_cons] at hi
    rcases hi with hi | rfl | hi
    · exact isWord_of_mem_wrap (ihl h.1) item hi
    · trivial
    · exact isWord_of_mem_wrap (ihr h.2) item hi

theorem formula_ne_nil (e : Expr) : e.formula ≠ [] := by
  cases e <;> simp [formula]

/-- The text of a formula of numerals reads as the folded chains and as nothing else. -/
theorem reads_formula_iff {e : Expr} (h : e.Numerals) (u : Term) :
    Formula.Reads (Formula.text e.formula) u ↔ u = e.reassoc :=
  Formula.reads_text_iff e.formula_ne_nil (isWord_of_mem_formula h) (derives_formula e).1.to_sum u

/-! ## When the reading is the expression itself -/

/-- Whether a property holds of every operator of an expression with its right operand. -/
def Everywhere (P : Operator → Expr → Prop) : Expr → Prop
  | .number _ _ => True
  | .binary op left right _ => P op right ∧ left.Everywhere P ∧ right.Everywhere P

instance decidableEverywhere {P : Operator → Expr → Prop} [∀ op right, Decidable (P op right)] :
    (e : Expr) → Decidable (e.Everywhere P)
  | .number _ _ => inferInstanceAs (Decidable True)
  | .binary op left right _ =>
    have := decidableEverywhere (P := P) left
    have := decidableEverywhere (P := P) right
    inferInstanceAs (Decidable (P op right ∧ left.Everywhere P ∧ right.Everywhere P))

/-- Whether a right operand joins the chain of its operator: it has the same rank and is a sum
or a product, not a difference or a quotient. -/
def Regroups (op : Operator) (right : Expr) : Prop :=
  ∃ o, right.operator? = some o ∧ o.rank = op.rank ∧ (o = .plus ∨ o = .times)

theorem descends_right_iff (op : Operator) (r : Expr) :
    r.descends op.rank true ↔ Regroups op r := by
  cases r with
  | number value pos =>
    refine ⟨fun h => absurd h (not_descends_number value pos op.rank true), ?_⟩
    rintro ⟨o, ho, _⟩
    cases ho
  | binary o l r pos =>
    rw [descends_binary_iff]
    constructor
    · rintro ⟨hrank, hop⟩
      exact ⟨o, rfl, hrank, hop rfl⟩
    · rintro ⟨o', ho', hrank, hop⟩
      cases ho'
      exact ⟨hrank, fun _ => hop⟩

end Expr

/-- The number of numerals of a term. -/
def Term.leaves : Term → Nat
  | .numeral _ => 1
  | .binary _ left right => left.leaves + right.leaves

theorem Term.leaves_pos (t : Term) : 0 < t.leaves := by
  induction t with
  | numeral value => simp [leaves]
  | binary op l r ihl ihr => simp only [leaves]; omega

namespace Chain

def leaves (c : Chain) : Nat := c.fold.leaves

theorem foldl_attach_leaves (links : List (Operator × Term)) (s t : Term) :
    (links.foldl attach s).leaves + t.leaves = (links.foldl attach t).leaves + s.leaves := by
  induction links generalizing s t with
  | nil => exact Nat.add_comm s.leaves t.leaves
  | cons link links ih =>
    have hstep := ih (attach s link) (attach t link)
    simp only [attach, Term.leaves, List.foldl_cons] at hstep ⊢
    omega

theorem after_leaves (c : Chain) (t : Term) (op : Operator) :
    (c.after t op).leaves = t.leaves + c.leaves := by
  have hfold := foldl_attach_leaves c.links (.binary op t c.head) c.head
  rw [Term.leaves] at hfold
  unfold after leaves fold
  omega

/-- The last operand of a fold is an operand of the chain, so it is no larger than the chain. -/
theorem after_right_le (c : Chain) (t : Term) (op : Operator) :
    ∃ o l r, c.after t op = .binary o l r ∧ r.leaves ≤ c.leaves := by
  unfold after leaves fold
  rcases List.eq_nil_or_concat c.links with hnil | ⟨links, link, hlinks⟩
  · refine ⟨op, t, c.head, by rw [hnil, List.foldl_nil], ?_⟩
    rw [hnil, List.foldl_nil]
  · refine ⟨link.1, links.foldl attach (.binary op t c.head), link.2, ?_, ?_⟩
    · rw [hlinks, List.concat_eq_append, List.foldl_append]
      rfl
    · rw [hlinks, List.concat_eq_append, List.foldl_append]
      exact Nat.le_add_left _ _

end Chain

namespace Expr

theorem reassoc_leaves (e : Expr) : e.reassoc.leaves = e.term.leaves := by
  induction e with
  | number value pos => rfl
  | binary op l r pos ihl ihr =>
    rw [reassoc_binary, Chain.after_leaves, ihl, Chain.leaves, operands_fold, ihr]
    rfl

/-- A chain that goes on into the right operand leaves a smaller one there. -/
theorem reassoc_ne_of_regroups {op : Operator} {l r : Expr} {pos : Position} (h : Regroups op r) :
    (Expr.binary op l r pos).reassoc ≠ (Expr.binary op l r pos).term := by
  have hd := (descends_right_iff op r).2 h
  cases r with
  | number value p => exact absurd hd (not_descends_number value p op.rank true)
  | binary o l' r' p =>
    rw [reassoc_binary, operands_binary hd, Chain.after_join]
    obtain ⟨o', s, t, heq, hle⟩ := Chain.after_right_le (r'.operands op.rank true)
      ((l'.operands op.rank false).after l.reassoc op) o
    rw [Chain.leaves, operands_fold, reassoc_leaves] at hle
    rw [heq]
    intro hterm
    have hright : t = (Expr.binary o l' r' p).term := (Term.binary.inj hterm).2.2
    have hpos := l'.term.leaves_pos
    rw [hright] at hle
    simp only [term, Term.leaves] at hle
    omega

/-- The reading is the expression itself where no right operand joins the chain before it. -/
theorem reassoc_eq_term_iff (e : Expr) :
    e.reassoc = e.term ↔ e.Everywhere fun op right => ¬ Regroups op right := by
  induction e with
  | number value pos => exact ⟨fun _ => trivial, fun _ => rfl⟩
  | binary op l r pos ihl ihr =>
    by_cases hr : Regroups op r
    · exact ⟨fun h => absurd h (reassoc_ne_of_regroups hr), fun h => absurd hr h.1⟩
    · have hd : ¬ r.descends op.rank true := fun h => hr ((descends_right_iff op r).1 h)
      rw [reassoc_binary, operands_of_not_descends hd, Chain.after_single, term,
        Term.binary.injEq, ihl, ihr]
      simp [Everywhere, hr]

/-- The inline math of an expression of numerals has exactly one reading: the expression with its
chains folded from the left. This is the expression itself just where no right operand of the same
rank is a sum or a product. -/
theorem latex_reads_as_reassoc (e : Expr) (h : e.Numerals) :
    ∃ body, e.latex = "$" ++ body ++ "$" ∧
      (∀ u, Formula.Reads body u ↔ u = e.reassoc) ∧
      (Formula.Reads body e.term ↔ e.Everywhere fun op right => ¬ Regroups op right) := by
  refine ⟨Formula.text e.formula, rfl, reads_formula_iff h, ?_⟩
  rw [reads_formula_iff h, eq_comm]
  exact reassoc_eq_term_iff e

/-- A chain that goes on into a right operand and, in there, into a left one. -/
theorem latex_reads_as_reassoc_mixed :
    let number := fun text => Expr.number text default
    let e := Expr.binary .plus (number "1")
      (.binary .plus (.binary .minus (number "2") (number "-3.5") default) (number "4") default)
      default
    e.Numerals ∧ ∃ body, e.latex = "$" ++ body ++ "$" ∧
      ∀ u, Formula.Reads body u ↔
        u = .binary .plus (.binary .minus (.binary .plus (.numeral "1") (.numeral "2"))
          (.numeral "-3.5")) (.numeral "4") := by
  intro number e
  have hn : e.Numerals := by decide
  obtain ⟨body, hbody, hreads, _⟩ := latex_reads_as_reassoc e hn
  exact ⟨hn, body, hbody, hreads⟩

end Expr

end PostfixMath
