-- The outline of a tree is faithful. It has a line for each node, operators before their operands,
-- and a line is as far in as its node is deep. The kind of a node tells how many operands follow
-- it, so trees can be read off the lines one after the other. In a line the mark of the position
-- comes after the last at sign, whatever the numeral before it holds.
import PostfixMath.Proofs.Layout
import PostfixMath.Proofs.Measure
import PostfixMath.Proofs.Rounding

namespace PostfixMath

/-! ## Texts that are cut at a mark -/

namespace Text

variable {mark : Char} {as bs as' bs' : List Char}

theorem cut_at_last (hbs : mark ∉ bs) (hbs' : mark ∉ bs')
    (h : as ++ mark :: bs = as' ++ mark :: bs') : as = as' ∧ bs = bs' := by
  rcases List.append_eq_append_iff.1 h with ⟨mid, rfl, heq⟩ | ⟨mid, rfl, heq⟩
  · cases mid with
    | nil => simpa using heq
    | cons c mid =>
      obtain ⟨-, rfl⟩ := List.cons.inj heq
      exact absurd (by simp) hbs
  · cases mid with
    | nil => simpa using heq.symm
    | cons c mid =>
      obtain ⟨-, rfl⟩ := List.cons.inj heq
      exact absurd (by simp) hbs'

theorem cut_at_first (has : mark ∉ as) (has' : mark ∉ as')
    (h : as ++ mark :: bs = as' ++ mark :: bs') : as = as' ∧ bs = bs' := by
  have hreverse := congrArg List.reverse h
  simp only [List.reverse_append, List.reverse_cons, List.append_assoc, List.singleton_append]
    at hreverse
  obtain ⟨hbs, has⟩ := cut_at_last (by simpa using has) (by simpa using has') hreverse
  exact ⟨List.reverse_inj.1 has, List.reverse_inj.1 hbs⟩

end Text

/-! ## Positions -/

theorem Decimal.text_inj {d d' : Decimal} (h : d.text = d'.text) : d = d' := by
  have hread : ∀ d : Decimal, Json.takeNumber d.text.toList = some (d, []) := by
    intro d
    simpa using Json.takeNumber_of_text (Json.numberText_text d) Json.endsNumber_nil
  have hsame : some (d, ([] : List Char)) = some (d', []) := by
    rw [← hread d, ← hread d', h]
  simpa using hsame

theorem Decimal.notMem_text {c : Char} (h : ¬ Json.Numeric c) (d : Decimal) : c ∉ d.text.toList :=
  fun hc => h ((Json.numberText_text d).numeric c hc)

namespace Position

theorem toList_brief (p : Position) :
    p.brief.toList = p.line.text.toList ++ ':' :: p.column.text.toList := by
  simp [brief]

theorem notMem_brief {c : Char} (h : ¬ Json.Numeric c) (hcolon : c ≠ ':') (p : Position) :
    c ∉ p.brief.toList := by
  rw [toList_brief, List.mem_append, List.mem_cons]
  simp [Decimal.notMem_text h, hcolon]

theorem brief_inj {p p' : Position} (h : p.brief = p'.brief) : p = p' := by
  have hcolon : ¬ Json.Numeric ':' := by decide
  have hchars := congrArg String.toList h
  rw [toList_brief, toList_brief] at hchars
  obtain ⟨hline, hcolumn⟩ :=
    Text.cut_at_first (Decimal.notMem_text hcolon _) (Decimal.notMem_text hcolon _) hchars
  have hline := Decimal.text_inj (String.toList_inj.1 hline)
  have hcolumn := Decimal.text_inj (String.toList_inj.1 hcolumn)
  cases p
  cases p'
  simp_all

end Position

namespace Expr

/-! ## Lines -/

/-- Where a node was written. -/
def place : Expr → Position
  | .number _ pos => pos
  | .binary _ _ _ pos => pos

/-- What the line of a node says before its position. -/
def heading : Expr → String
  | .number value _ => "NumberLiteral " ++ value
  | .binary op _ _ _ => "BinaryOp " ++ op.symbol

theorem heading_number (value : String) (pos : Position) :
    (Expr.number value pos).heading = "NumberLiteral " ++ value := rfl

theorem heading_binary (op : Operator) (l r : Expr) (pos : Position) :
    (Expr.binary op l r pos).heading = "BinaryOp " ++ op.symbol := rfl

theorem outlineLine_eq (e : Expr) : e.outlineLine = e.heading ++ " @" ++ e.place.brief := by
  cases e <;> rfl

theorem toList_outlineLine (e : Expr) :
    e.outlineLine.toList = (e.heading.toList ++ [' ']) ++ '@' :: e.place.brief.toList := by
  simp [outlineLine_eq]

theorem outlineLine_inj {e e' : Expr} (h : e.outlineLine = e'.outlineLine) :
    e.heading = e'.heading ∧ e.place = e'.place := by
  have hchars := congrArg String.toList h
  have hat : ∀ p : Position, '@' ∉ p.brief.toList := Position.notMem_brief (by decide) (by decide)
  rw [toList_outlineLine, toList_outlineLine] at hchars
  obtain ⟨hheading, hplace⟩ := Text.cut_at_last (hat _) (hat _) hchars
  exact ⟨String.toList_inj.1 (List.append_cancel_right hheading),
    Position.brief_inj (String.toList_inj.1 hplace)⟩

theorem heading_number_inj {value value' : String} {pos pos' : Position}
    (h : (Expr.number value pos).heading = (Expr.number value' pos').heading) : value = value' :=
  (String.append_right_inj _).1 h

theorem heading_binary_inj {op op' : Operator} {l r l' r' : Expr} {pos pos' : Position}
    (h : (Expr.binary op l r pos).heading = (Expr.binary op' l' r' pos').heading) : op = op' := by
  have hsymbol : op.symbol = op'.symbol := (String.append_right_inj _).1 h
  have hchar : op.char = op'.char := by simpa [Operator.symbol] using hsymbol
  have hread := congrArg Operator.ofChar? hchar
  simpa using hread

theorem head?_heading_number (value : String) (pos : Position) :
    (Expr.number value pos).heading.toList.head? = some 'N' := by
  have hname : "NumberLiteral ".toList.head? = some 'N' := by decide
  rw [heading_number, String.toList_append, List.head?_append, hname, Option.some_or]

theorem head?_heading_binary (op : Operator) (l r : Expr) (pos : Position) :
    (Expr.binary op l r pos).heading.toList.head? = some 'B' := by
  have hname : "BinaryOp ".toList.head? = some 'B' := by decide
  rw [heading_binary, String.toList_append, List.head?_append, hname, Option.some_or]

theorem heading_ne (value : String) (op : Operator) (l r : Expr) (pos pos' : Position) :
    (Expr.number value pos).heading ≠ (Expr.binary op l r pos').heading := by
  intro h
  have hfirst := congrArg (·.toList.head?) h
  simp [head?_heading_number, head?_heading_binary] at hfirst

/-! ## Indents -/

/-- Whether a line has this many spaces at its front, no more, and then the line of a node. -/
def StandsAt (e : Expr) (indent : Nat) (line : String) : Prop :=
  line.toList.takeWhile (· = ' ') = List.replicate indent ' ' ∧
    line.toList.dropWhile (· = ' ') = e.outlineLine.toList

theorem exists_outlineLine_cons (e : Expr) : ∃ c cs, e.outlineLine.toList = c :: cs ∧ c ≠ ' ' := by
  have hfirst : ∃ c, e.heading.toList.head? = some c ∧ c ≠ ' ' := by
    cases e with
    | number value pos => exact ⟨'N', head?_heading_number value pos, by decide⟩
    | binary op l r pos => exact ⟨'B', head?_heading_binary op l r pos, by decide⟩
  obtain ⟨c, hhead, hc⟩ := hfirst
  obtain ⟨cs, hcs⟩ := List.head?_eq_some_iff.1 hhead
  exact ⟨c, _, by rw [toList_outlineLine, hcs]; rfl, hc⟩

theorem standsAt_levelIndent (e : Expr) (level : Nat) :
    e.StandsAt (2 * level) (levelIndent level ++ e.outlineLine) := by
  obtain ⟨c, cs, hline, hc⟩ := e.exists_outlineLine_cons
  have hspaces : ∀ d ∈ List.replicate (2 * level) ' ', decide (d = ' ') = true := by
    intro d hd
    simp [List.eq_of_mem_replicate hd]
  unfold StandsAt levelIndent
  rw [String.toList_append, String.toList_ofList, hline, List.takeWhile_append_of_pos hspaces,
    List.dropWhile_append_of_pos hspaces]
  simp [hc]

/-- Lines that are the same with their indents are the same without them. -/
theorem outlineLine_of_indented {e e' : Expr} {level level' : Nat}
    (h : levelIndent level ++ e.outlineLine = levelIndent level' ++ e'.outlineLine) :
    e.outlineLine = e'.outlineLine := by
  apply String.toList_inj.1
  rw [← (e.standsAt_levelIndent level).2, ← (e'.standsAt_levelIndent level').2, h]

/-! ## Lines of a tree -/

/-- The nodes of a tree with their depths, operators before their operands. -/
def nodesFrom (depth : Nat) (e : Expr) : List (Nat × Expr) :=
  (depth, e) ::
    match e with
    | .number _ _ => []
    | .binary _ l r _ => l.nodesFrom (depth + 1) ++ r.nodesFrom (depth + 1)

/-- Whether no numeral of a tree has a line feed. -/
def OneLine : Expr → Prop
  | .number value _ => '\n' ∉ value.toList
  | .binary _ l r _ => l.OneLine ∧ r.OneLine

instance decidableOneLine : (e : Expr) → Decidable e.OneLine
  | .number value _ => inferInstanceAs (Decidable ('\n' ∉ value.toList))
  | .binary _ l r _ => @instDecidableAnd _ _ l.decidableOneLine r.decidableOneLine

theorem outlineLines_eq (level : Nat → Nat) (depth : Nat) (e : Expr) :
    e.outlineLines level depth =
      (e.nodesFrom depth).map fun node => levelIndent (level node.1) ++ node.2.outlineLine := by
  induction e generalizing depth with
  | number value pos => rfl
  | binary op l r pos ihl ihr =>
    rw [outlineLines, nodesFrom, List.map_cons, List.map_append, ← ihl, ← ihr]

theorem outlineLines_ne_nil (level : Nat → Nat) (depth : Nat) (e : Expr) :
    e.outlineLines level depth ≠ [] := by
  cases e <;> simp [outlineLines]

theorem length_nodesFrom (depth : Nat) (e : Expr) : (e.nodesFrom depth).length = e.stats.nodes := by
  induction e generalizing depth with
  | number value pos => rfl
  | binary op l r pos ihl ihr => simp [nodesFrom, ihl, ihr]

theorem OneLine.of_mem {e : Expr} (h : e.OneLine) {depth : Nat} :
    ∀ node ∈ e.nodesFrom depth, node.2.OneLine := by
  induction e generalizing depth with
  | number value pos =>
    intro node hnode
    rw [List.mem_singleton.1 hnode]
    exact h
  | binary op l r pos ihl ihr =>
    intro node hnode
    rw [nodesFrom, List.mem_cons, List.mem_append] at hnode
    rcases hnode with rfl | hnode | hnode
    · exact h
    · exact ihl h.1 node hnode
    · exact ihr h.2 node hnode

theorem OneLine.lineFeed_notMem {e : Expr} (h : e.OneLine) : '\n' ∉ e.outlineLine.toList := by
  have hbrief : ∀ p : Position, '\n' ∉ p.brief.toList :=
    Position.notMem_brief (by decide) (by decide)
  rw [toList_outlineLine]
  cases e with
  | number value pos =>
    have hvalue : '\n' ∉ value.toList := h
    simp [heading_number, hbrief, hvalue]
  | binary op l r pos =>
    have hop : '\n' ≠ op.char := by cases op <;> decide
    simp [heading_binary, Operator.symbol, hbrief, hop]

/-- The lines of an outline are those of its text. -/
theorem lines_outlineLines {e : Expr} (h : e.OneLine) (level : Nat → Nat) (depth : Nat) :
    Excerpt.lines ("\n".intercalate (e.outlineLines level depth)) = e.outlineLines level depth := by
  apply Excerpt.lines_intercalate (e.outlineLines_ne_nil level depth)
  intro text htext
  rw [outlineLines_eq] at htext
  obtain ⟨node, hnode, rfl⟩ := List.mem_map.1 htext
  have hline := (h.of_mem node hnode).lineFeed_notMem
  simp [levelIndent, hline]

/-! ## The lines tell the tree -/

/-- A tree is read off the front of a list of lines in one way only, whatever the indents are. -/
theorem outlineLines_inj {level level' : Nat → Nat} {e e' : Expr} {depth depth' : Nat}
    {rest rest' : List String}
    (h : e.outlineLines level depth ++ rest = e'.outlineLines level' depth' ++ rest') :
    e = e' ∧ rest = rest' := by
  induction e generalizing e' depth depth' rest rest' with
  | number value pos =>
    cases e' with
    | number value' pos' =>
      obtain ⟨hline, hrest⟩ := List.cons.inj h
      obtain ⟨hheading, hplace⟩ := outlineLine_inj (outlineLine_of_indented hline)
      have hvalue := heading_number_inj hheading
      simp_all [place]
    | binary op' l' r' pos' =>
      obtain ⟨hline, -⟩ := List.cons.inj h
      exact absurd (outlineLine_inj (outlineLine_of_indented hline)).1 (heading_ne _ _ _ _ _ _)
  | binary op l r pos ihl ihr =>
    cases e' with
    | number value' pos' =>
      obtain ⟨hline, -⟩ := List.cons.inj h
      exact absurd (outlineLine_inj (outlineLine_of_indented hline)).1.symm (heading_ne _ _ _ _ _ _)
    | binary op' l' r' pos' =>
      rw [outlineLines, outlineLines, List.cons_append, List.cons_append, List.append_assoc,
        List.append_assoc] at h
      obtain ⟨hline, hoperands⟩ := List.cons.inj h
      obtain ⟨hheading, hplace⟩ := outlineLine_inj (outlineLine_of_indented hline)
      obtain rfl := heading_binary_inj hheading
      obtain rfl : pos = pos' := hplace
      -- the lines of the left operand come first, and what is left of them starts the right one
      obtain ⟨rfl, hright⟩ := ihl hoperands
      obtain ⟨rfl, hrest⟩ := ihr hright
      exact ⟨rfl, hrest⟩

theorem outline_text_inj {level level' : Nat → Nat} {e e' : Expr} (h : e.OneLine) (h' : e'.OneLine)
    (htext : "\n".intercalate (e.outlineLines level 0) =
      "\n".intercalate (e'.outlineLines level' 0)) : e = e' := by
  have hlines := congrArg Excerpt.lines htext
  rw [lines_outlineLines h, lines_outlineLines h'] at hlines
  have hrest : e.outlineLines level 0 ++ [] = e'.outlineLines level' 0 ++ [] := by rw [hlines]
  exact (outlineLines_inj hrest).1

/-! ## Outlines that are written -/

theorem foldr_outlineLines (level : Nat → Nat) (depth : Nat) (e : Expr) (rest : Nat) :
    (e.outlineLines level depth).foldr (fun text total => Text.units text.toList + 1 + total) rest =
      e.outlineSize level depth + rest := by
  have hindent : ∀ n, Text.units (levelIndent n).toList = 2 * n :=
    fun n => Excerpt.units_spaces (2 * n)
  induction e generalizing depth rest with
  | number value pos =>
    simp [outlineLines, outlineSize, Text.units_append, hindent]
  | binary op l r pos ihl ihr =>
    simp only [outlineLines, outlineSize, List.foldr_cons, List.foldr_append, ihl, ihr,
      String.toList_append, Text.units_append, hindent]
    omega

theorem outlineSize_eq (level : Nat → Nat) (e : Expr) :
    e.outlineSize level 0 =
      Text.units ("\n".intercalate (e.outlineLines level 0)).toList + 1 := by
  rw [← Excerpt.units_intercalate (e.outlineLines_ne_nil level 0), foldr_outlineLines, Nat.add_zero]

theorem outlineTooLong_iff {level : Nat → Nat} {e : Expr} :
    e.outlineTooLong level = true ↔
      Text.longest < Text.units ("\n".intercalate (e.outlineLines level 0)).toList := by
  rw [outlineTooLong, decide_eq_true_eq, outlineSize_eq, Nat.add_lt_add_iff_right]

/-- The level of an outline that is not too long is exact in double precision. -/
theorem level_lt_of_fits {d : Nat} {e : Expr}
    (h : Text.units (e.outline d).toList ≤ Text.longest) : d < 2 ^ 53 := by
  have hlevel : d ≤ e.outlineSize (d + ·) 0 := by cases e <;> simp only [outlineSize] <;> omega
  have hlongest : Text.longest < 2 ^ 53 - 1 := by decide
  rw [outlineSize_eq] at hlevel
  unfold outline at h
  omega

theorem outlineFrom_ofNat {d : Nat} {e : Expr} {text : String} :
    e.outlineFrom (.ofNat d) = .ok text ↔
      text = e.outline d ∧ Text.units text.toList ≤ Text.longest := by
  have hread : (Decimal.ofNat d).toInt? = some (d : Int) := rfl
  simp only [outlineFrom, hread, Int.toNat_natCast, outlineTooLong_iff]
  constructor
  · intro h
    split_ifs at h with hcount hlong
    obtain rfl := Except.ok.inj h
    exact ⟨rfl, not_lt.1 hlong⟩
  · rintro ⟨rfl, hfits⟩
    have hsmall := level_lt_of_fits hfits
    have hwhole : ¬ Binary64.wholePart d < 0 := by simp [Binary64.wholePart_natCast]
    have hbeyond := (Binary64.natCast_lt_beyond hsmall).ne
    rw [Decimal.value_ofNat hsmall, if_neg (not_or.2 ⟨hwhole, hbeyond⟩)]
    exact if_neg hfits.not_gt

theorem exists_levels {indent : Decimal} {e : Expr} {text : String}
    (h : e.outlineFrom indent = .ok text) :
    ∃ level, text = "\n".intercalate (e.outlineLines level 0) := by
  unfold outlineFrom at h
  simp only at h
  split at h
  · cases h
  · split at h
    all_goals
      split at h
      · cases h
      · exact ⟨_, (Except.ok.inj h).symm⟩

/-- An outline has a line for each node, operators before their operands, and the line of a node is
as far in as the node is deep. No two trees share an outline, whatever their numerals hold besides
line feeds and wherever the outlines start. -/
theorem outline_is_faithful (d : Nat) (e : Expr) (h : e.OneLine) :
    (∀ text, e.outlineFrom (.ofNat d) = .ok text ↔
      text = e.outline d ∧ Text.units text.toList ≤ Text.longest) ∧
    (Excerpt.lines (e.outline d)).length = e.stats.nodes ∧
    List.Forall₂ (fun line node => node.2.StandsAt (2 * (d + node.1)) line)
      (Excerpt.lines (e.outline d)) (e.nodesFrom 0) ∧
    (∀ e' : Expr, e'.OneLine → e'.outline d = e.outline d → e' = e) ∧
    (∀ (e' : Expr) (indent indent' : Decimal) (text : String), e'.OneLine →
      e.outlineFrom indent = .ok text → e'.outlineFrom indent' = .ok text → e' = e) := by
  have hlines : Excerpt.lines (e.outline d) = e.outlineLines (d + ·) 0 := lines_outlineLines h _ 0
  rw [hlines, outlineLines_eq]
  refine ⟨fun text => outlineFrom_ofNat, ?_, ?_, ?_, ?_⟩
  · rw [List.length_map, length_nodesFrom]
  · rw [List.forall₂_map_left_iff]
    apply List.forall₂_same.2
    intro node _
    exact node.2.standsAt_levelIndent (d + node.1)
  · intro e' h' htext
    exact outline_text_inj h' h htext
  · intro e' indent indent' text h' htext htext'
    obtain ⟨level, hlevel⟩ := exists_levels htext
    obtain ⟨level', hlevel'⟩ := exists_levels htext'
    exact outline_text_inj h' h (hlevel'.symm.trans hlevel)

theorem outline_is_faithful_marks_in_numerals :
    let first : Expr := .number "1 @1:1" ⟨.ofNat 1, .ofNat 1⟩
    let second : Expr := .number "BinaryOp + " ⟨.ofNat 1, .ofNat 8⟩
    let tree : Expr := .binary .minus first second ⟨.ofNat 2, .ofNat 3⟩
    let moved : Expr := .binary .minus first second ⟨.ofNat 2, .ofNat 4⟩
    tree.OneLine ∧ moved.OneLine ∧
    tree.outlineFrom (.ofNat 1) =
      .ok "  BinaryOp - @2:3\n    NumberLiteral 1 @1:1 @1:1\n    NumberLiteral BinaryOp +  @1:8" ∧
    (Excerpt.lines (tree.outline 1)).length = 3 ∧
    List.Forall₂ (fun line node => node.2.StandsAt (2 * (1 + node.1)) line)
      (Excerpt.lines (tree.outline 1)) [(0, tree), (1, first), (1, second)] ∧
    moved.outline 1 ≠ tree.outline 1 := by
  intro first second tree moved
  have htree : tree.OneLine := by decide
  have hmoved : moved.OneLine := by decide
  obtain ⟨hwritten, hlength, hlines, hinj, -⟩ := outline_is_faithful 1 tree htree
  refine ⟨htree, hmoved, (hwritten _).2 ⟨by decide +kernel, by decide +kernel⟩, hlength, hlines, ?_⟩
  intro heq
  exact absurd (hinj moved hmoved heq) (by decide)

end Expr

end PostfixMath
