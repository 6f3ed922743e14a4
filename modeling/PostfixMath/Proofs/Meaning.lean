-- What a formula means: its value as a fraction, against the value of the expression it was made
-- from. The two agree for all numerals on exactly the expressions that subtract no sum and
-- divide by no product, since only there a lost pair of parentheses changes a sign or turns a
-- fraction over.
import Mathlib.Algebra.Field.Rat
import Mathlib.Tactic.NormNum
import PostfixMath.Proofs.Reassociation

namespace PostfixMath

/-! ## Values -/

/-- The number itself, not rounded. -/
def Decimal.toRat (d : Decimal) : Rat :=
  let size := mkRat (d.digits * tenTo d.exponent.toNat : Nat) (tenTo (-d.exponent).toNat)
  if d.negative then -size else size

def numberOf? (text : String) : Option Rat := (Decimal.ofSigned? text.toList).map Decimal.toRat

/-- The reciprocal of a number. That of zero is a convention: some number, or none. -/
def reciprocal? (zero : Option Rat) (x : Rat) : Option Rat := if x = 0 then zero else some x⁻¹

namespace Operator

/-- An operator applied to two numbers. A quotient is the product with the reciprocal. -/
def compute (zero : Option Rat) (op : Operator) (x y : Rat) : Option Rat :=
  match op with
  | .plus => some (x + y)
  | .minus => some (x - y)
  | .times => some (x * y)
  | .over => (reciprocal? zero y).map (x * ·)

def combine (zero : Option Rat) (op : Operator) (x y : Option Rat) : Option Rat :=
  x.bind fun x => y.bind fun y => op.compute zero x y

end Operator

/-- The value of a term: each operator is applied to the values of its operands. -/
def Term.value (zero : Option Rat) : Term → Option Rat
  | .numeral text => numberOf? text
  | .binary op left right => op.combine zero (left.value zero) (right.value zero)

theorem numberOf?_isSome {text : String} (h : IsNumeral text) : (numberOf? text).isSome := by
  obtain ⟨n, hn⟩ := h
  rw [numberOf?, ← hn, n.ofSigned?_chars]
  rfl

/-- Where zero has a reciprocal, every expression of numerals has a value. -/
theorem value_isSome {e : Expr} (h : e.Numerals) (recip : Rat) :
    (e.term.value (some recip)).isSome := by
  induction e with
  | number value pos => exact numberOf?_isSome h
  | binary op l r pos ihl ihr =>
    obtain ⟨x, hx⟩ := Option.isSome_iff_exists.1 (ihl h.1)
    obtain ⟨y, hy⟩ := Option.isSome_iff_exists.1 (ihr h.2)
    rw [Expr.term, Term.value, hx, hy]
    cases op
    · rfl
    · rfl
    · rfl
    · simp only [Operator.combine, Option.bind_some, Operator.compute, reciprocal?]
      split <;> rfl

/-! ## Chains of one rank -/

variable {zero : Option Rat}

/-- A sum takes in a sum or a difference on its right, and a product a product or a quotient. -/
theorem Operator.combine_assoc {op o : Operator} (hop : op = .plus ∨ op = .times)
    (hrank : o.rank = op.rank) (x y z : Option Rat) :
    op.combine zero x (o.combine zero y z) = o.combine zero (op.combine zero x y) z := by
  rcases x with _ | x
  · rfl
  rcases y with _ | y
  · rcases hop with rfl | rfl <;> rfl
  rcases z with _ | z
  · rcases hop with rfl | rfl <;> rfl
  rcases hop with rfl | rfl
  · cases o
    · simp [combine, compute, add_assoc]
    · simp [combine, compute, add_sub_assoc]
    · simp [rank] at hrank
    · simp [rank] at hrank
  · cases o
    · simp [rank] at hrank
    · simp [rank] at hrank
    · simp [combine, compute, mul_assoc]
    · simp only [combine, compute, Option.bind_some]
      rcases reciprocal? zero z with _ | w
      · rfl
      · simp [mul_assoc]

/-- One more link of a chain, on the value of what stands before it. -/
def Chain.step (zero x : Option Rat) (link : Operator × Term) : Option Rat :=
  link.1.combine zero x (link.2.value zero)

namespace Chain

theorem value_foldl_attach (links : List (Operator × Term)) (t : Term) :
    (links.foldl attach t).value zero = links.foldl (step zero) (t.value zero) := by
  induction links generalizing t with
  | nil => rfl
  | cons link links ih =>
    rw [List.foldl_cons, ih]
    rfl

theorem foldl_step_combine {op : Operator} (hop : op = .plus ∨ op = .times)
    {links : List (Operator × Term)} (hlinks : ∀ link ∈ links, link.1.rank = op.rank)
    (x y : Option Rat) :
    links.foldl (step zero) (op.combine zero x y) =
      op.combine zero x (links.foldl (step zero) y) := by
  induction links generalizing y with
  | nil => rfl
  | cons link links ih =>
    have hlink : step zero (op.combine zero x y) link = op.combine zero x (step zero y link) :=
      (Operator.combine_assoc hop (hlinks link (by simp)) x y _).symm
    rw [List.foldl_cons, List.foldl_cons, hlink, ih (fun l hl => hlinks l (by simp [hl]))]

/-- After a sum or a product, a chain of the same rank may be folded on its own first. -/
theorem value_after {op : Operator} (hop : op = .plus ∨ op = .times) {c : Chain}
    (hlinks : ∀ link ∈ c.links, link.1.rank = op.rank) (t : Term) :
    (c.after t op).value zero = op.combine zero (t.value zero) (c.fold.value zero) := by
  rw [after, value_foldl_attach, Term.value, foldl_step_combine hop hlinks, fold,
    value_foldl_attach]

end Chain

namespace Expr

theorem operands_rank {e : Expr} {rank : Nat} {onRight : Bool} :
    ∀ link ∈ (e.operands rank onRight).links, link.1.rank = rank := by
  induction e generalizing onRight with
  | number value pos =>
    rw [operands_of_not_descends (not_descends_number value pos rank onRight)]
    simp [Chain.single]
  | binary op l r pos ihl ihr =>
    by_cases hd : (Expr.binary op l r pos).descends rank onRight
    · rw [operands_binary hd]
      intro link hlink
      rw [Chain.join, List.mem_append, List.mem_cons] at hlink
      rcases hlink with hlink | rfl | hlink
      · exact ihl link hlink
      · exact ((descends_binary_iff op l r pos rank onRight).1 hd).1
      · exact ihr link hlink
    · rw [operands_of_not_descends hd]
      simp [Chain.single]

/-! ## The two pairs that are misread -/

/-- Whether a right operand changes its meaning when it loses its parentheses: a sum that is
subtracted, and a product that is divided by. -/
def Misreads (op : Operator) (right : Expr) : Prop :=
  (op = .minus ∧ right.operator? = some .plus) ∨ (op = .over ∧ right.operator? = some .times)

instance (op : Operator) (right : Expr) : Decidable (Misreads op right) :=
  inferInstanceAs (Decidable (_ ∨ _))

def Faithful (e : Expr) : Prop := e.Everywhere fun op right => ¬ Misreads op right

instance (e : Expr) : Decidable e.Faithful := decidableEverywhere e

theorem misreads_of_regroups {op : Operator} {r : Expr} (h : Regroups op r) :
    Misreads op r ∨ op = .plus ∨ op = .times := by
  obtain ⟨o, ho, hrank, hsum⟩ := h
  rcases hsum with rfl | rfl <;> cases op <;> simp_all [Misreads, Operator.rank]

/-- Apart from the two pairs, the folded chains have the value of the operator applied to the
folded chains of its operands. -/
theorem value_reassoc_binary {op : Operator} {l r : Expr} {pos : Position}
    (h : ¬ Misreads op r) :
    (Expr.binary op l r pos).reassoc.value zero =
      op.combine zero (l.reassoc.value zero) (r.reassoc.value zero) := by
  rw [reassoc_binary]
  by_cases hd : r.descends op.rank true
  · have hop := (misreads_of_regroups ((descends_right_iff op r).1 hd)).resolve_left h
    rw [Chain.value_after hop operands_rank, operands_fold]
  · rw [operands_of_not_descends hd, Chain.after_single]
    rfl

theorem value_reassoc {e : Expr} (h : e.Faithful) :
    e.reassoc.value zero = e.term.value zero := by
  induction e with
  | number value pos => rfl
  | binary op l r pos ihl ihr =>
    obtain ⟨hop, hl, hr⟩ := h
    rw [value_reassoc_binary hop, ihl hl, ihr hr]
    rfl

end Expr

/-! ## Numerals that show a misreading -/

/-- The numeral that leaves the left operand of an operator unchanged. -/
def Operator.neutral : Operator → String
  | .plus | .minus => "0"
  | .times | .over => "1"

@[simp]
theorem numberOf?_zero : numberOf? "0" = some 0 := by decide

@[simp]
theorem numberOf?_one : numberOf? "1" = some 1 := by decide

@[simp]
theorem numberOf?_two : numberOf? "2" = some 2 := by decide

@[simp]
theorem numberOf?_three : numberOf? "3" = some 3 := by decide

theorem Operator.combine_neutral (op : Operator) (x : Option Rat) :
    op.combine zero x (numberOf? op.neutral) = x := by
  rcases x with _ | x
  · rfl
  · cases op <;> simp [neutral, combine, compute, reciprocal?]

namespace Expr

/-- An expression with other numerals: its first numeral is this one, and every other is the one
that leaves what stands before it unchanged. -/
def fill (text : String) : Expr → Expr
  | .number _ pos => .number text pos
  | .binary op left right pos => .binary op (left.fill text) (right.fill op.neutral) pos

/-- An expression with its numerals left open. -/
def shape : Expr → Term
  | .number _ _ => .numeral ""
  | .binary op left right _ => .binary op left.shape right.shape

theorem shape_fill (e : Expr) (text : String) : (e.fill text).shape = e.shape := by
  induction e generalizing text with
  | number value pos => rfl
  | binary op l r pos ihl ihr => rw [fill, shape, ihl, ihr, shape]

theorem numerals_fill (e : Expr) {text : String} (h : IsNumeral text) : (e.fill text).Numerals := by
  induction e generalizing text with
  | number value pos => exact h
  | binary op l r pos ihl ihr =>
    refine ⟨ihl h, ihr ?_⟩
    cases op <;> decide

theorem value_fill (e : Expr) (text : String) :
    (e.fill text).term.value zero = numberOf? text := by
  induction e generalizing text with
  | number value pos => rfl
  | binary op l r pos ihl ihr => rw [fill, term, Term.value, ihl, ihr, Operator.combine_neutral]

theorem value_reassoc_fill (e : Expr) (text : String) :
    (e.fill text).reassoc.value zero = numberOf? text ∧
      ∀ (op : Operator) (onRight : Bool) (t : Term),
        (((e.fill text).operands op.rank onRight).after t op).value zero =
          op.combine zero (t.value zero) (numberOf? text) := by
  induction e generalizing text with
  | number value pos =>
    refine ⟨rfl, fun op onRight t => ?_⟩
    rw [fill, operands_of_not_descends (not_descends_number text pos op.rank onRight)]
    rfl
  | binary o l r pos ihl ihr =>
    have hself : ((Expr.binary o l r pos).fill text).reassoc.value zero = numberOf? text := by
      rw [fill, reassoc_binary, (ihr o.neutral).2, (ihl text).1, Operator.combine_neutral]
    refine ⟨hself, fun op onRight t => ?_⟩
    by_cases hd : ((Expr.binary o l r pos).fill text).descends op.rank onRight
    · rw [fill] at hd ⊢
      have hrank := ((descends_binary_iff _ _ _ _ _ _).1 hd).1
      rw [operands_binary hd, Chain.after_join, ← hrank, (ihr o.neutral).2, hrank, (ihl text).2,
        Operator.combine_neutral]
    · rw [operands_of_not_descends hd, Chain.after_single, Term.value, hself]

theorem operator?_of_shape {d e : Expr} (h : d.shape = e.shape) : d.operator? = e.operator? := by
  cases d <;> cases e <;> simp_all [shape, operator?]

theorem misreads_of_shape {op : Operator} {d e : Expr} (h : d.shape = e.shape) :
    Misreads op d ↔ Misreads op e := by
  rw [Misreads, Misreads, operator?_of_shape h]

theorem faithful_of_shape {d e : Expr} (h : d.shape = e.shape) (he : e.Faithful) : d.Faithful := by
  induction e generalizing d with
  | number value pos =>
    cases d with
    | number => trivial
    | binary => simp [shape] at h
  | binary op l r pos ihl ihr =>
    cases d with
    | number => simp [shape] at h
    | binary o l' r' pos' =>
      obtain ⟨rfl, hl, hr⟩ := Term.binary.inj h
      obtain ⟨hop, hel, her⟩ := he
      exact ⟨fun hm => hop ((misreads_of_shape hr).1 hm), ihl hl hel, ihr hr her⟩

/-- The value of a misread expression and the value of its reading differ, and neither is zero,
so that they still differ on the right of any operator. -/
def Differs (zero : Option Rat) (e : Expr) : Prop :=
  ∃ x y : Rat, x ≠ y ∧ x ≠ 0 ∧ y ≠ 0 ∧
    e.term.value zero = some x ∧ e.reassoc.value zero = some y

/-- A filled operand that joins the chain is taken in from the left. -/
theorem value_reassoc_regrouped (op o : Operator) (hrank : o.rank = op.rank)
    (ho : o = .plus ∨ o = .times) (l a b : Expr) (s t u : String) (p pos : Position) :
    (Expr.binary op (l.fill s) (.binary o (a.fill t) (b.fill u) p) pos).reassoc.value zero =
      o.combine zero (op.combine zero (numberOf? s) (numberOf? t)) (numberOf? u) := by
  have hd : (Expr.binary o (a.fill t) (b.fill u) p).descends op.rank true :=
    (descends_binary_iff _ _ _ _ _ _).2 ⟨hrank, fun _ => ho⟩
  rw [reassoc_binary, operands_binary hd, Chain.after_join, ← hrank, (value_reassoc_fill b u).2,
    hrank, (value_reassoc_fill a t).2, (value_reassoc_fill l s).1]

theorem exists_differs_regrouped (op o : Operator) (hrank : o.rank = op.rank)
    (ho : o = .plus ∨ o = .times) (s t u : String) (hn : IsNumeral s ∧ IsNumeral t ∧ IsNumeral u)
    (x y : Rat) (hne : x ≠ y ∧ x ≠ 0 ∧ y ≠ 0)
    (hx : op.combine zero (numberOf? s) (o.combine zero (numberOf? t) (numberOf? u)) = some x)
    (hy : o.combine zero (op.combine zero (numberOf? s) (numberOf? t)) (numberOf? u) = some y)
    (l a b : Expr) (p pos : Position) :
    ∃ d : Expr, d.shape = (Expr.binary op l (.binary o a b p) pos).shape ∧ d.Numerals ∧
      d.Differs zero := by
  refine ⟨.binary op (l.fill s) (.binary o (a.fill t) (b.fill u) p) pos, ?_, ?_, x, y, hne.1,
    hne.2.1, hne.2.2, ?_, ?_⟩
  · simp only [shape, shape_fill]
  · exact ⟨l.numerals_fill hn.1, a.numerals_fill hn.2.1, b.numerals_fill hn.2.2⟩
  · simp only [term, Term.value, value_fill, hx]
  · rw [value_reassoc_regrouped op o hrank ho, hy]

/-- At the pair itself: `3 - ( 0 + 1 )` is not `3 - 0 + 1`, and `1 / ( 1 * 2 )` is not
`1 / 1 * 2`. -/
theorem differs_of_misreads {op : Operator} {l r : Expr} {pos : Position} (h : Misreads op r) :
    ∃ d : Expr, d.shape = (Expr.binary op l r pos).shape ∧ d.Numerals ∧ d.Differs zero := by
  cases r with
  | number value p => rcases h with ⟨_, h⟩ | ⟨_, h⟩ <;> cases h
  | binary o a b p =>
    rcases h with ⟨rfl, ho⟩ | ⟨rfl, ho⟩
    · cases ho
      refine exists_differs_regrouped .minus .plus rfl (Or.inl rfl) "3" "0" "1" (by decide) 2 4
        (by norm_num) ?_ ?_ l a b p pos
      all_goals norm_num [Operator.combine, Operator.compute]
    · cases ho
      refine exists_differs_regrouped .over .times rfl (Or.inr rfl) "1" "1" "2" (by decide) (1 / 2) 2
        (by norm_num) ?_ ?_ l a b p pos
      all_goals norm_num [Operator.combine, Operator.compute, reciprocal?]

/-- On the left of an operator, where the right operand leaves the value unchanged. -/
theorem differs_left {op : Operator} {l r : Expr} {pos : Position} (hop : ¬ Misreads op r)
    (h : l.Differs zero) : (Expr.binary op l (r.fill op.neutral) pos).Differs zero := by
  obtain ⟨x, y, hne, hx, hy, hterm, hreads⟩ := h
  refine ⟨x, y, hne, hx, hy, ?_, ?_⟩
  · rw [term, Term.value, hterm, value_fill, Operator.combine_neutral]
  · have hfill : ¬ Misreads op (r.fill op.neutral) := by
      rwa [misreads_of_shape (shape_fill r op.neutral)]
    rw [value_reassoc_binary hfill, hreads, (value_reassoc_fill r op.neutral).1,
      Operator.combine_neutral]

/-- On the right of an operator, where the left operand is neutral: the values come out as they
are, with the other sign, or turned over. -/
theorem differs_right {op : Operator} {l r : Expr} {pos : Position} (hop : ¬ Misreads op r)
    (h : r.Differs zero) : (Expr.binary op (l.fill op.neutral) r pos).Differs zero := by
  obtain ⟨x, y, hne, hx, hy, hterm, hreads⟩ := h
  unfold Differs
  rw [value_reassoc_binary hop, term, Term.value, hterm, hreads, value_fill,
    (value_reassoc_fill l op.neutral).1]
  cases op
  · refine ⟨x, y, hne, hx, hy, ?_, ?_⟩
    all_goals simp [Operator.neutral, Operator.combine, Operator.compute]
  · refine ⟨-x, -y, by simpa using hne, by simpa using hx, by simpa using hy, ?_, ?_⟩
    all_goals simp [Operator.neutral, Operator.combine, Operator.compute]
  · refine ⟨x, y, hne, hx, hy, ?_, ?_⟩
    all_goals simp [Operator.neutral, Operator.combine, Operator.compute]
  · refine ⟨x⁻¹, y⁻¹, by simpa using hne, by simpa using hx, by simpa using hy, ?_, ?_⟩
    all_goals simp [Operator.neutral, Operator.combine, Operator.compute, reciprocal?, hx, hy]

theorem exists_differs (zero : Option Rat) {e : Expr} (h : ¬ e.Faithful) :
    ∃ d : Expr, d.shape = e.shape ∧ d.Numerals ∧ d.Differs zero := by
  induction e with
  | number value pos => exact absurd trivial h
  | binary op l r pos ihl ihr =>
    have hneutral : IsNumeral op.neutral := by cases op <;> decide
    by_cases hop : Misreads op r
    · exact differs_of_misreads hop
    · by_cases hl : l.Faithful
      · have hr : ¬ r.Faithful := fun hr => h ⟨hop, hl, hr⟩
        obtain ⟨d, hshape, hn, hd⟩ := ihr hr
        refine ⟨.binary op (l.fill op.neutral) d pos, ?_, ⟨l.numerals_fill hneutral, hn⟩, ?_⟩
        · simp only [shape, shape_fill, hshape]
        · exact differs_right (by rwa [misreads_of_shape hshape]) hd
      · obtain ⟨d, hshape, hn, hd⟩ := ihl hl
        refine ⟨.binary op d (r.fill op.neutral) pos, ?_, ⟨hn, r.numerals_fill hneutral⟩, ?_⟩
        · simp only [shape, shape_fill, hshape]
        · exact differs_left hop hd

/-! ## The meaning of the inline math -/

/-- The inline math of an expression has one reading, and that has the value of the expression. -/
def KeepsValue (zero : Option Rat) (e : Expr) : Prop :=
  ∃ body t, e.latex = "$" ++ body ++ "$" ∧ (∀ u, Formula.Reads body u ↔ u = t) ∧
    t.value zero = e.term.value zero

theorem keepsValue_iff {e : Expr} (h : e.Numerals) :
    e.KeepsValue zero ↔ e.reassoc.value zero = e.term.value zero := by
  constructor
  · rintro ⟨body, t, hbody, hreads, hvalue⟩
    have hbody' : body = Formula.text e.formula := by
      rw [latex] at hbody
      simpa [String.append_assoc] using hbody.symm
    have ht : t = e.reassoc := by
      rw [← reads_formula_iff h, ← hbody', hreads]
    rw [← ht, hvalue]
  · intro hvalue
    exact ⟨_, _, rfl, reads_formula_iff h, hvalue⟩

/-- Where no sum is subtracted and no product is divided by, the inline math has the value of the
expression, and a value there is, unless it divides by zero and zero has no reciprocal. -/
theorem faithful_keeps_value (zero : Option Rat) (e : Expr) (hn : e.Numerals) (hf : e.Faithful) :
    e.KeepsValue zero ∧ (zero.isSome → (e.term.value zero).isSome) := by
  refine ⟨(keepsValue_iff hn).2 (value_reassoc hf), fun hz => ?_⟩
  obtain ⟨recip, rfl⟩ := Option.isSome_iff_exists.1 hz
  exact value_isSome hn recip

/-- Sums in sums, products in products, groups and quotients, with a division by zero. -/
theorem faithful_keeps_value_nested :
    let number := fun text => Expr.number text default
    let e := Expr.binary .plus (number "1")
      (.binary .plus (.binary .minus (number "-2.5") (number "3") default)
        (.binary .times (number "4")
          (.binary .times (.binary .over (number "5") (number "0") default) (number "6") default)
          default) default) default
    e.Numerals ∧ e.Faithful ∧ e.latex = "$1 + -2.5 - 3 + 4 \\times 5 \\div 0 \\times 6$" ∧
      e.KeepsValue (some 0) ∧ e.KeepsValue none ∧ (e.term.value (some 0)).isSome := by
  intro number e
  have hn : e.Numerals := by decide
  have hf : e.Faithful := by decide
  obtain ⟨hzero, hsome⟩ := faithful_keeps_value (some 0) e hn hf
  exact ⟨hn, hf, by decide, hzero, (faithful_keeps_value none e hn hf).1, hsome rfl⟩

/-- The two pairs are all that can go wrong: the inline math keeps the value of an expression
whatever its numerals are, just where no sum is subtracted and no product is divided by. -/
theorem keeps_value_for_all_numerals_iff (zero : Option Rat) (e : Expr) :
    (∀ d : Expr, d.shape = e.shape → d.Numerals → d.KeepsValue zero) ↔ e.Faithful := by
  constructor
  · intro h
    by_contra hf
    obtain ⟨d, hshape, hn, x, y, hne, _, _, hterm, hreads⟩ := exists_differs zero hf
    have hvalue := (keepsValue_iff hn).1 (h d hshape hn)
    rw [hterm, hreads, Option.some.injEq] at hvalue
    exact hne hvalue.symm
  · intro hf d hshape hn
    exact (keepsValue_iff hn).2 (value_reassoc (faithful_of_shape hshape hf))

/-- Five less the sum of three and two is nothing, and its inline math reads as four. -/
theorem subtracted_sum_changes_value :
    let number := fun text => Expr.number text default
    let e := Expr.binary .minus (number "5") (.binary .plus (number "3") (number "2") default)
      default
    e.Numerals ∧ e.latex = "$" ++ "5 - 3 + 2" ++ "$" ∧
      ∀ zero, e.term.value zero = some 0 ∧
        (∀ u, Formula.Reads "5 - 3 + 2" u → u.value zero = some 4) ∧ ¬ e.KeepsValue zero := by
  intro number e
  have hn : e.Numerals := by decide
  have h5 : numberOf? "5" = some 5 := by decide
  have hlatex : Formula.text e.formula = "5 - 3 + 2" := by decide
  refine ⟨hn, by decide, fun zero => ?_⟩
  have hterm : e.term.value zero = some 0 := by
    norm_num [e, number, term, Term.value, h5, Operator.combine, Operator.compute]
  have hreads : e.reassoc.value zero = some 4 := by
    have hfold : e.reassoc = .binary .plus (.binary .minus (.numeral "5") (.numeral "3"))
      (.numeral "2") := rfl
    norm_num [hfold, Term.value, h5, Operator.combine, Operator.compute]
  refine ⟨hterm, fun u hu => ?_, fun hkeeps => ?_⟩
  · rw [← hlatex, reads_formula_iff hn] at hu
    rw [hu, hreads]
  · rw [keepsValue_iff hn, hterm, hreads] at hkeeps
    norm_num at hkeeps

end Expr

end PostfixMath
