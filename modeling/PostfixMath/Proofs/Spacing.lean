-- White space only separates. The scan of two texts with white space between them is the scan of
-- the first one followed by that of the second one, moved along the text. So the kinds and texts
-- of the tokens, the wording of a fault and the inline math do not depend on which white space
-- stands between the words of a text, nor on whether any stands around them.
import Mathlib.Data.List.Forall2
import Mathlib.Logic.Relation
import PostfixMath.Proofs.Joining
import PostfixMath.Proofs.RoundTrip
import PostfixMath.Proofs.Tiling

namespace PostfixMath

open Text

/-! ## White space -/

/-- Whether a text is a run of white space. -/
def IsSpacing (w : String) : Prop := w.toList ≠ [] ∧ ∀ c ∈ w.toList, c ∈ [' ', '\t', '\r', '\n']

/-- One change of the white space of a text: another run in the place of one, or a run at one of
its ends less. -/
inductive Respacing : String → String → Prop where
  | between (a b : String) {w w' : String} : IsSpacing w → IsSpacing w' →
    Respacing (a ++ w ++ b) (a ++ w' ++ b)
  | leading (b : String) {w : String} : IsSpacing w → Respacing (w ++ b) b
  | trailing (a : String) {w : String} : IsSpacing w → Respacing (a ++ w) a

theorem breaks_of_isSpace {c : Char} (h : Lexeme.isSpace c) : Breaks c := by
  rw [Lexeme.isSpace_iff] at h
  simp only [List.mem_cons, List.not_mem_nil, or_false] at h
  rcases h with rfl | rfl | rfl | rfl <;> simp [Breaks]

/-! ## The same text at another place -/

theorem Cursor.offset_advance_add {n : Nat} {cur cur' : Cursor}
    (h : cur'.offset = cur.offset + n) (cs : List Char) :
    (cur'.advance cs).offset = (cur.advance cs).offset + n := by
  rw [offset_advance, offset_advance, h]
  omega

namespace Token

/-- Whether a token is another one that stands so many units further on. -/
structure MovedBy (n : Nat) (t t' : Token) : Prop where
  kind : t'.kind = t.kind
  text : t'.text = t.text
  offset : ∃ o, t.offset = .ofNat o ∧ t'.offset = .ofNat (o + n)

/-- Whether what a scan finds is what another one finds, so many units further on. -/
inductive ScanMovedBy (n : Nat) :
    Except ScanError (List Token) → Except ScanError (List Token) → Prop where
  | tokens {ts ts' : List Token} : List.Forall₂ (MovedBy n) ts ts' →
    ScanMovedBy n (.ok ts) (.ok ts')
  | fault {e e' : ScanError} : e'.message = e.message →
    e'.cursor.offset = e.cursor.offset + n → ScanMovedBy n (.error e) (.error e')

theorem movedBy_ofCursor {n : Nat} {cur cur' : Cursor} (h : cur'.offset = cur.offset + n)
    (kind : Kind) (text : List Char) : MovedBy n (ofCursor kind text cur) (ofCursor kind text cur') :=
  ⟨rfl, rfl, cur.offset, rfl, by rw [← h]; rfl⟩

theorem ScanMovedBy.before {n : Nat} {t t' : Token} {r r' : Except ScanError (List Token)}
    (ht : MovedBy n t t') (h : ScanMovedBy n r r') : ScanMovedBy n (t.before r) (t'.before r') := by
  cases h with
  | tokens hts => exact .tokens (.cons ht hts)
  | fault hmessage hoffset => exact .fault hmessage hoffset

/-- A scan finds the same in a text wherever the text starts. -/
theorem scanFrom_movedBy {n : Nat} {last last' cur cur' : Cursor}
    (hlast : last'.offset = last.offset + n) (hcur : cur'.offset = cur.offset + n)
    (cs : List Char) : ScanMovedBy n (scanFrom last cur cs) (scanFrom last' cur' cs) := by
  induction cs using Lexeme.text_induction generalizing cur cur' with
  | nil =>
    rw [scanFrom_nil, scanFrom_nil]
    exact .tokens (.cons (movedBy_ofCursor hlast .eof []) .nil)
  | space c cs hspace ih =>
    rw [scanFrom_space hspace, scanFrom_space hspace]
    exact ih (Cursor.offset_advance_add hcur [c])
  | number m rest hdigit hpoint ih =>
    rw [scanFrom_number m hdigit hpoint, scanFrom_number m hdigit hpoint]
    exact (ih (Cursor.offset_advance_add hcur m.chars)).before (movedBy_ofCursor hcur .number m.chars)
  | operator op rest hminus ih =>
    rw [scanFrom_operator op hminus, scanFrom_operator op hminus]
    exact (ih (Cursor.offset_advance_add hcur [op.char])).before (movedBy_ofCursor hcur _ [op.char])
  | stray c cs hstray =>
    rw [scanFrom_stray hstray, scanFrom_stray hstray]
    exact .fault rfl hcur

/-! ## Two texts with white space between them -/

theorem scanFrom_run {w : List Char} (h : ∀ c ∈ w, Lexeme.isSpace c) (last cur : Cursor)
    (cs : List Char) : scanFrom last cur (w ++ cs) = scanFrom last (cur.advance w) cs := by
  induction w generalizing cur with
  | nil => rfl
  | cons c w ih =>
    rw [List.cons_append, scanFrom_space (h c List.mem_cons_self),
      ih fun d hd => h d (List.mem_cons_of_mem c hd), Cursor.advance_cons]

/-- A scan goes on over white space with the text after it. -/
theorem scan_append_spacing (a b : String) {w : String} (hw : IsSpacing w) :
    ∃ next, scan (a ++ w ++ b) = goOn (scan a) next ∧
      ScanMovedBy (units a.toList + units w.toList) (scan b) next := by
  have hspace : ∀ c ∈ w.toList, Lexeme.isSpace c := fun c hc =>
    (Lexeme.isSpace_iff c).2 (hw.2 c hc)
  obtain ⟨c, cs, hcs⟩ := List.exists_cons_of_ne_nil hw.1
  have hbreak : Breaks c := breaks_of_isSpace (hspace c (by simp [hcs]))
  have hgo : scan (a ++ w ++ b) =
      goOn (scan a) (scanFrom (Cursor.start.advance (a ++ w ++ b).toList)
        ((Cursor.start.advance a.toList).advance w.toList) b.toList) := by
    rw [← scanFrom_run hspace, scan_eq, scan_eq, String.toList_append, String.toList_append,
      List.append_assoc, hcs, List.cons_append]
    exact scanFrom_append_break hbreak _ _ _ _ _
  refine ⟨_, hgo, ?_⟩
  rw [scan_eq]
  refine scanFrom_movedBy ?_ ?_ b.toList
  · simp only [String.toList_append, Cursor.offset_advance, units_append]
    omega
  · simp only [Cursor.offset_advance]
    omega

/-! ## What does not depend on places -/

/-- The kind and the text of a token. -/
def spelling (t : Token) : Kind × String := (t.kind, t.text)

/-- The kinds and texts of the tokens that a scan finds, or the wording of its fault. -/
def gist (result : Except ScanError (List Token)) : Except String (List (Kind × String)) :=
  (result.map (List.map spelling)).mapError ScanError.message

/-- What is found in one text and then in another one, without the end of the first. -/
def joined {α : Type} : Except String (List α) → Except String (List α) → Except String (List α)
  | .error message, _ => .error message
  | .ok _, .error message => .error message
  | .ok xs, .ok ys => .ok (xs.dropLast ++ ys)

theorem gist_of_movedBy {n : Nat} {r r' : Except ScanError (List Token)} (h : ScanMovedBy n r r') :
    gist r' = gist r := by
  cases h with
  | tokens hts =>
    refine congrArg Except.ok ?_
    induction hts with
    | nil => rfl
    | cons ht _ ih => rw [List.map_cons, List.map_cons, ih, spelling, spelling, ht.kind, ht.text]
  | fault hmessage _ => exact congrArg Except.error hmessage

theorem gist_goOn (r next : Except ScanError (List Token)) :
    gist (goOn r next) = joined (gist r) (gist next) := by
  cases r with
  | error e => rfl
  | ok ts =>
    have hgo : goOn (.ok ts) next = ts.dropLast.foldr before next := rfl
    cases next with
    | error e =>
      rw [hgo, foldr_before_error]
      rfl
    | ok us =>
      rw [hgo, foldr_before_ok]
      refine congrArg Except.ok ?_
      rw [List.map_append, List.map_dropLast]

theorem gist_append_spacing (a b : String) {w : String} (hw : IsSpacing w) :
    gist (scan (a ++ w ++ b)) = joined (gist (scan a)) (gist (scan b)) := by
  obtain ⟨next, hscan, hmoved⟩ := scan_append_spacing a b hw
  rw [hscan, gist_goOn, gist_of_movedBy hmoved]

theorem gist_scan_empty : gist (scan "") = .ok [(.eof, "")] := by
  rw [scan_eq]
  exact congrArg gist scanFrom_nil

theorem joined_empty (a : String) : joined (gist (scan a)) (gist (scan "")) = gist (scan a) := by
  rw [gist_scan_empty]
  cases h : scan a with
  | error e => rfl
  | ok ts =>
    obtain ⟨words, rfl, -⟩ := standsIn_of_scanFrom (scan_eq a ▸ h)
    refine congrArg Except.ok ?_
    simp [spelling, eof, ofCursor]

/-- One change of white space leaves the gist of a scan as it is. -/
theorem gist_of_respacing {s t : String} (h : Respacing s t) : gist (scan s) = gist (scan t) := by
  cases h with
  | between a b hw hw' => rw [gist_append_spacing a b hw, gist_append_spacing a b hw']
  | leading _ hw =>
    have := gist_append_spacing "" t hw
    rw [String.empty_append, gist_scan_empty] at this
    rw [this]
    cases gist (scan t) <;> rfl
  | trailing _ hw =>
    have := gist_append_spacing t "" hw
    rwa [String.append_empty, joined_empty] at this

theorem gist_of_respacings {s t : String} (h : Relation.EqvGen Respacing s t) :
    gist (scan s) = gist (scan t) := by
  induction h with
  | rel s t h => exact gist_of_respacing h
  | refl s => rfl
  | symm s t _ ih => exact ih.symm
  | trans s t u _ _ ih ih' => exact ih.trans ih'

end Token

/-! ## Readings of the same words -/

namespace Expr

/-- Whether two tokens are the same but for their places. -/
def SameWord (t t' : Token) : Prop := t.spelling = t'.spelling

/-- Whether two trees are the same but for their places. -/
def SameTerm (e e' : Expr) : Prop := e.term = e'.term

/-- Whether two readings end alike: with results that are alike, or with faults of one cause. -/
inductive ReadAlike {α : Type} (alike : α → α → Prop) :
    Except ReadError α → Except ReadError α → Prop where
  | ok {a a' : α} : alike a a' → ReadAlike alike (.ok a) (.ok a')
  | error {e e' : ReadError} : e.cause = e'.cause → ReadAlike alike (.error e) (.error e')

section Stacks

variable {stack stack' : List Expr} (hstack : List.Forall₂ SameTerm stack stack')
include hstack

theorem push_alike {t t' : Token} (h : SameWord t t') :
    ReadAlike (List.Forall₂ SameTerm) (push stack t) (push stack' t') := by
  obtain ⟨kind, text, pos, offset⟩ := t
  obtain ⟨kind', text', pos', offset'⟩ := t'
  obtain ⟨rfl, rfl⟩ := Prod.mk.inj h
  have hnumber : SameTerm (.number text pos) (.number text pos') := rfl
  cases kind with
  | operator op =>
    cases hstack with
    | nil => exact .error rfl
    | cons hright hstack =>
      cases hstack with
      | nil => exact .error rfl
      | cons hleft hbelow =>
        refine .ok (.cons ?_ hbelow)
        rw [SameTerm, term, term, hright, hleft]
  | number => exact .ok (.cons hnumber hstack)
  | eof => exact .ok (.cons hnumber hstack)
  | other name => exact .ok (.cons hnumber hstack)

theorem finish_alike (eof eof' : Token) :
    ReadAlike SameTerm (finish stack eof) (finish stack' eof') := by
  have hlen := hstack.length_eq
  cases hstack with
  | nil => exact .error rfl
  | cons htop hstack =>
    cases hstack with
    | nil => exact .ok htop
    | cons _ _ => exact .error (congrArg ReadError.Cause.leftOver hlen)

/-- Two readings of the same words go alike, token by token. -/
theorem readFrom_alike {ts ts' : List Token} (h : List.Forall₂ SameWord ts ts')
    (last last' : Token) :
    ReadAlike SameTerm (readFrom last stack ts) (readFrom last' stack' ts') := by
  induction h generalizing stack stack' with
  | nil => exact finish_alike hstack last last'
  | @cons t t' ts ts' ht _ ih =>
    have hkind : t.kind = t'.kind := (Prod.mk.inj ht).1
    by_cases heof : t.kind = .eof
    · rw [readFrom, readFrom, if_pos heof, if_pos (hkind ▸ heof)]
      exact finish_alike hstack t t'
    · have hpush := push_alike hstack ht
      rw [readFrom, readFrom, if_neg heof, if_neg (hkind ▸ heof)]
      generalize push stack t = r at hpush
      generalize push stack' t' = r' at hpush
      cases hpush with
      | ok hstack' => exact ih hstack'
      | error hcause => exact .error hcause

end Stacks

theorem ofTokens_alike {ts ts' : List Token}
    (h : ts.map Token.spelling = ts'.map Token.spelling) :
    ReadAlike SameTerm (ofTokens ts) (ofTokens ts') := by
  rw [← List.forall₂_eq_eq_eq, List.forall₂_map_left_iff, List.forall₂_map_right_iff] at h
  exact readFrom_alike .nil h _ _

end Expr

/-! ## Conversions -/

namespace Conversion

/-- The inline math of a conversion, or the stage and the wording of its fault. -/
def gist (result : Except Diagnostic Conversion) : Except (String × String) String :=
  (result.map latex).mapError fun d => (d.stage, d.message)

/-- The gist of a conversion depends on the gist of the scan only. -/
theorem gist_convert {s t : String} (h : Token.gist (Token.scan s) = Token.gist (Token.scan t)) :
    gist (convert s) = gist (convert t) := by
  cases hs : Token.scan s with
  | error e =>
    cases ht : Token.scan t with
    | error e' =>
      rw [hs, ht] at h
      rw [convert_of_scan_error hs, convert_of_scan_error ht]
      exact congrArg (fun m => Except.error ("lexer", m)) (Except.error.inj h)
    | ok ts' =>
      rw [hs, ht] at h
      cases h
  | ok ts =>
    cases ht : Token.scan t with
    | error e' =>
      rw [hs, ht] at h
      cases h
    | ok ts' =>
      rw [hs, ht] at h
      have hread := Expr.ofTokens_alike (Except.ok.inj h)
      generalize hr : Expr.ofTokens ts = r at hread
      generalize hr' : Expr.ofTokens ts' = r' at hread
      cases hread with
      | ok hterm =>
        rw [convert_of_read hs hr, convert_of_read ht hr']
        refine congrArg Except.ok ?_
        rw [latex, latex, Expr.latex, Expr.latex, Expr.formula_of_term hterm]
      | error hcause =>
        rw [convert_of_read_error hs hr, convert_of_read_error ht hr']
        exact congrArg (fun cause => Except.error ("parser", cause.message)) hcause

end Conversion

namespace Token

/-- Of two texts with white space between them the first one is scanned as it is alone: a fault in
it is the fault of the whole, and its tokens come first. Then the second one is scanned as it is
alone, further on by the length of the first one and of the white space. Hence no change of white
space between words, before them or after them makes another list of kinds and texts, another
wording of a fault, or another formula. -/
theorem scan_across_spacing :
    (∀ a w b : String, IsSpacing w →
      (∀ e, scan a = .error e → scan (a ++ w ++ b) = .error e) ∧
      (∀ as e, scan a = .ok as → scan b = .error e →
        ∃ e', scan (a ++ w ++ b) = .error e' ∧ e'.message = e.message ∧
          e'.cursor.offset = e.cursor.offset + (units a.toList + units w.toList)) ∧
      ∀ as bs, scan a = .ok as → scan b = .ok bs →
        ∃ bs', scan (a ++ w ++ b) = .ok (beforeEof as ++ bs') ∧
          List.Forall₂ (MovedBy (units a.toList + units w.toList)) bs bs') ∧
    ∀ s t : String, Relation.EqvGen Respacing s t →
      gist (scan s) = gist (scan t) ∧
      Conversion.gist (convert s) = Conversion.gist (convert t) := by
  constructor
  · intro a w b hw
    obtain ⟨next, hscan, hmoved⟩ := scan_append_spacing a b hw
    refine ⟨fun e ha => ?_, fun as e ha hb => ?_, fun as bs ha hb => ?_⟩
    · rw [hscan, ha, goOn_error]
    · obtain ⟨words, rfl, -⟩ := standsIn_of_scanFrom (scan_eq a ▸ ha)
      rw [hb] at hmoved
      cases hmoved with
      | fault hmessage hoffset =>
        rw [hscan, ha, goOn_ok, foldr_before_error]
        exact ⟨_, rfl, hmessage, hoffset⟩
    · obtain ⟨words, rfl, hwords⟩ := standsIn_of_scanFrom (scan_eq a ▸ ha)
      rw [hb] at hmoved
      cases hmoved with
      | tokens hts =>
        rw [hscan, ha, goOn_ok, foldr_before_ok,
          beforeEof_append fun t ht => (hwords t ht).kind_ne_eof]
        exact ⟨_, rfl, hts⟩
  · intro s t h
    exact ⟨gist_of_respacings h, Conversion.gist_convert (gist_of_respacings h)⟩

/-- A line break between a minus and a number, with a fault on either side of it, and with none. -/
theorem scan_across_spacing_minus :
    (∃ e, scan "3 ?\r\n2" = .error e ∧ e.cursor.offset = 2) ∧
    (∃ e, scan "3 -\r\n2 ?" = .error e ∧ e.cursor.offset = 7) ∧
    (∃ as bs bs', scan "3 -" = .ok as ∧ scan "2" = .ok bs ∧
      scan "3 -\r\n2" = .ok (beforeEof as ++ bs') ∧ List.Forall₂ (MovedBy 5) bs bs') ∧
    gist (scan "\t3 -\r\n2") = gist (scan "3 - 2") := by
  have hbreak : IsSpacing "\r\n" := by simp [IsSpacing]
  have hspace : IsSpacing " " := by simp [IsSpacing]
  have htab : IsSpacing "\t" := by simp [IsSpacing]
  have hleft : scan "3 ?" = .error ⟨'?', ⟨1, 3, 2⟩⟩ := by decide +kernel
  have hright : scan "2 ?" = .error ⟨'?', ⟨1, 3, 2⟩⟩ := by decide +kernel
  have hminus : scan "3 -" = .ok [⟨.number, "3", ⟨.ofNat 1, .ofNat 1⟩, .ofNat 0⟩,
      ⟨.operator .minus, "-", ⟨.ofNat 1, .ofNat 3⟩, .ofNat 2⟩,
      ⟨.eof, "", ⟨.ofNat 1, .ofNat 4⟩, .ofNat 3⟩] := by decide +kernel
  have htwo : scan "2" = .ok [⟨.number, "2", ⟨.ofNat 1, .ofNat 1⟩, .ofNat 0⟩,
      ⟨.eof, "", ⟨.ofNat 1, .ofNat 2⟩, .ofNat 1⟩] := by decide +kernel
  refine ⟨⟨_, (scan_across_spacing.1 "3 ?" "\r\n" "2" hbreak).1 _ hleft, rfl⟩, ?_, ?_, ?_⟩
  · obtain ⟨e, he, -, hoffset⟩ :=
      (scan_across_spacing.1 "3 -" "\r\n" "2 ?" hbreak).2.1 _ _ hminus hright
    exact ⟨e, he, hoffset⟩
  · obtain ⟨bs', hscan, hmoved⟩ :=
      (scan_across_spacing.1 "3 -" "\r\n" "2" hbreak).2.2 _ _ hminus htwo
    exact ⟨_, _, bs', hminus, htwo, hscan, hmoved⟩
  · have hsteps : Relation.EqvGen Respacing ("\t" ++ "3 -\r\n2") ("3 -" ++ " " ++ "2") :=
      .trans _ _ _ (.rel _ _ (.leading _ htab)) (.rel _ _ (.between "3 -" "2" hbreak hspace))
    exact (scan_across_spacing.2 _ _ hsteps).1

/-- A minus at the end of a text does not become the sign of the number after the white space. -/
example : (scan "3 -\r\n2").map (List.map text) = .ok ["3", "-", "2", ""] := by cbv

end Token

end PostfixMath
