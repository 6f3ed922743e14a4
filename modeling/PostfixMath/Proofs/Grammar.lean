-- The grammar of JSON texts. It says which characters spell a value, the items of an array and the
-- fields of an object, with white space around every value and every name. The reader, which cuts
-- a text into tokens first, reads a value from a text just where the text spells that value.
import PostfixMath.Proofs.Literals

namespace PostfixMath.Json

open Text

/-! ## The grammar -/

/-- Whether characters are white space. -/
def Blank (cs : List Char) : Prop := ∀ c ∈ cs, c ∈ [' ', '\t', '\n', '\r']

/-- The texts of values that hold no others, strings apart. -/
inductive AtomText : List Char → Json → Prop where
  | null : AtomText ['n', 'u', 'l', 'l'] .null
  | true : AtomText ['t', 'r', 'u', 'e'] (.bool true)
  | false : AtomText ['f', 'a', 'l', 's', 'e'] (.bool false)
  | number {cs : List Char} {d : Decimal} : NumberText cs d → AtomText cs (.number d)

/-- What characters can spell: a value, a value with white space around it, the items of an array,
a field of an object, or its fields. -/
inductive Form where
  | value (v : Json)
  | padded (v : Json)
  | items (vs : List Json)
  | field (name : String) (v : Json)
  | fields (fs : List (String × Json))

/-- The characters that spell each form. An array or an object that is not empty has commas between
its items or fields, and none at its end. -/
inductive Spells : List Char → Form → Prop where
  | atom {cs : List Char} {v : Json} : AtomText cs v → Spells cs (.value v)
  | string {cs : List Char} {s : String} : StringText cs s → Spells cs (.value (.string s))
  | emptyArray {gap : List Char} : Blank gap → Spells ('[' :: gap ++ [']']) (.value (.array []))
  | array {cs : List Char} {vs : List Json} : Spells cs (.items vs) →
      Spells ('[' :: cs ++ [']']) (.value (.array vs))
  | emptyObject {gap : List Char} : Blank gap →
      Spells ('\x7b' :: gap ++ ['\x7d']) (.value (.object []))
  | object {cs : List Char} {fs : List (String × Json)} : Spells cs (.fields fs) →
      Spells ('\x7b' :: cs ++ ['\x7d']) (.value (.object fs))
  | padded {before cs after : List Char} {v : Json} : Blank before → Spells cs (.value v) →
      Blank after → Spells (before ++ cs ++ after) (.padded v)
  | lastItem {cs : List Char} {v : Json} : Spells cs (.padded v) → Spells cs (.items [v])
  | nextItem {cs rest : List Char} {v : Json} {vs : List Json} : Spells cs (.padded v) →
      Spells rest (.items vs) → Spells (cs ++ ',' :: rest) (.items (v :: vs))
  | field {before cs after rest : List Char} {name : String} {v : Json} : Blank before →
      StringText cs name → Blank after → Spells rest (.padded v) →
      Spells (before ++ cs ++ after ++ ':' :: rest) (.field name v)
  | lastField {cs : List Char} {name : String} {v : Json} : Spells cs (.field name v) →
      Spells cs (.fields [(name, v)])
  | nextField {cs rest : List Char} {name : String} {v : Json} {fs : List (String × Json)} :
      Spells cs (.field name v) → Spells rest (.fields fs) →
      Spells (cs ++ ',' :: rest) (.fields ((name, v) :: fs))

/-- Whether a text is a JSON text of a value. -/
def IsTextOf (text : String) (v : Json) : Prop := Spells text.toList (.padded v)

/-! ## Tokens -/

theorem isSpace_iff (c : Char) : isSpace c ↔ c ∈ [' ', '\t', '\n', '\r'] := by
  simp [isSpace, or_assoc]

/-- White space, a comma or the end of an array or an object may come right after a number. -/
theorem endsNumber_of_mem {c : Char} (h : c ∈ [' ', '\t', '\n', '\r'] ++ [',', ']', '\x7d'])
    (cs : List Char) : EndsNumber (c :: cs) := by
  rw [endsNumber_cons]
  simp only [List.cons_append, List.nil_append, List.mem_cons, List.not_mem_nil, or_false] at h
  rcases h with rfl | rfl | rfl | rfl | rfl | rfl | rfl <;> decide

theorem EndsNumber.append {gap rest : List Char} (h : EndsNumber rest) (hgap : Blank gap) :
    EndsNumber (gap ++ rest) := by
  cases gap with
  | nil => exact h
  | cons c gap => exact endsNumber_of_mem (List.mem_append_left _ (hgap c List.mem_cons_self)) _

/-- No token starts with white space. -/
theorem takeToken_space {c : Char} (h : isSpace c) (cs : List Char) :
    takeToken (c :: cs) = none := by
  rw [isSpace_iff] at h
  simp only [List.mem_cons, List.not_mem_nil, or_false] at h
  rcases h with rfl | rfl | rfl | rfl <;> rfl

theorem tokens?_blank {gap : List Char} (h : Blank gap) (cs : List Char) :
    tokens? (gap ++ cs) = tokens? cs := by
  induction gap with
  | nil => rfl
  | cons c gap ih =>
    rw [List.cons_append, tokens?, if_pos ((isSpace_iff c).2 (h c List.mem_cons_self)),
      ih fun d hd => h d (List.mem_cons_of_mem c hd)]

theorem tokens?_token {cs rest : List Char} {t : Token} (h : takeToken cs = some (t, rest)) :
    tokens? cs = (tokens? rest).map (t :: ·) := by
  cases cs with
  | nil => cases h
  | cons c cs =>
    have hc : ¬ isSpace c := by
      intro hc
      rw [takeToken_space hc] at h
      cases h
    rw [tokens?, if_neg hc]
    split
    · next hnone =>
      rw [h] at hnone
      cases hnone
    · next t' rest' hsome =>
      rw [h] at hsome
      cases hsome
      rfl

theorem takeToken_string {cs : List Char} {s : String} (h : StringText cs s) (rest : List Char) :
    takeToken (cs ++ rest) = some (.text s, rest) := by
  obtain ⟨hparts⟩ := h
  have hread := parts?_of_text hparts rest
  simp [takeToken, hread]

theorem takeToken_number {c : Char} (hc : c.isDigit ∨ c = '-') (cs : List Char) :
    takeToken (c :: cs) =
      (takeNumber (c :: cs)).map fun (d, rest) => (.atom (.number d), rest) := by
  unfold takeToken
  split
  case h_11 => cases takeNumber (c :: cs) <;> rfl
  -- Every other token starts with a character of its own.
  all_goals
    next heq =>
      obtain ⟨rfl, -⟩ := List.cons.inj heq
      simp at hc

theorem takeToken_atom {cs : List Char} {v : Json} (h : AtomText cs v) {rest : List Char}
    (hrest : EndsNumber rest) : takeToken (cs ++ rest) = some (.atom v, rest) := by
  cases h with
  | null => rfl
  | true => rfl
  | false => rfl
  | number h =>
    have htake := takeNumber_of_text h hrest
    obtain ⟨c, cs', rfl, hc⟩ := h.exists_cons
    rw [List.cons_append] at htake ⊢
    rw [takeToken_number hc, htake]
    rfl

/-! ## What is spelled is read -/

/-- Whether tokens do not end an array at once. -/
def StartsItem : List Token → Prop
  | .closeArray :: _ => False
  | _ => True

theorem readValue_openArray {ts : List Token} (h : StartsItem ts) (context : Context) :
    readValue context (.openArray :: ts) = readValue (.item [] context) ts := by
  rw [readValue.eq_def]
  split <;> simp_all [StartsItem]

/-- Whether characters are read as a value in every context. -/
def ReadsValue (cs : List Char) (v : Json) : Prop :=
  ∀ rest ts, EndsNumber rest → tokens? rest = some ts →
    ∃ front, tokens? (cs ++ rest) = some front ∧ StartsItem front ∧
      ∀ context, readValue context front = readOn context v ts

/-- Whether the reader makes of characters what they spell. Items and fields are read up to the
token that closes them. -/
def ReadAs (cs : List Char) : Form → Prop
  | .value v => ReadsValue cs v
  | .padded v => ReadsValue cs v
  | .items vs => ∀ rest ts, tokens? rest = some ts →
      ∃ front, tokens? (cs ++ ']' :: rest) = some front ∧ StartsItem front ∧
        ∀ before outer, readValue (.item before outer) front =
          readOn outer (.array (before.reverse ++ vs)) ts
  | .field name v => ∀ rest ts, EndsNumber rest → tokens? rest = some ts →
      ∃ front, tokens? (cs ++ rest) = some (.text name :: .colon :: front) ∧
        ∀ context, readValue context front = readOn context v ts
  | .fields fs => ∀ rest ts, tokens? rest = some ts →
      ∃ name front, tokens? (cs ++ '\x7d' :: rest) = some (.text name :: .colon :: front) ∧
        ∀ before outer, readValue (.field before name outer) front =
          readOn outer (.object (before.reverse ++ fs)) ts

theorem tokens?_cons {c : Char} {t : Token} {cs : List Char} {ts : List Token}
    (htoken : takeToken (c :: cs) = some (t, cs)) (h : tokens? cs = some ts) :
    tokens? (c :: cs) = some (t :: ts) := by
  rw [tokens?_token htoken, h]
  rfl

theorem readsValue_atom {cs : List Char} {v : Json} (h : AtomText cs v) : ReadsValue cs v := by
  intro rest ts hrest hts
  refine ⟨.atom v :: ts, ?_, trivial, fun context => ?_⟩
  · rw [tokens?_token (takeToken_atom h hrest), hts]
    rfl
  · rw [readValue]

theorem readsValue_string {cs : List Char} {s : String} (h : StringText cs s) :
    ReadsValue cs (.string s) := by
  intro rest ts _ hts
  refine ⟨.text s :: ts, ?_, trivial, fun context => ?_⟩
  · rw [tokens?_token (takeToken_string h rest), hts]
    rfl
  · rw [readValue]

theorem readsValue_emptyArray {gap : List Char} (h : Blank gap) :
    ReadsValue ('[' :: gap ++ [']']) (.array []) := by
  intro rest ts _ hts
  refine ⟨.openArray :: .closeArray :: ts, ?_, trivial, fun context => ?_⟩
  · rw [List.append_assoc, List.cons_append]
    refine tokens?_cons rfl ?_
    rw [tokens?_blank h]
    exact tokens?_cons rfl hts
  · rw [readValue]

theorem readsValue_array {cs : List Char} {vs : List Json} (h : ReadAs cs (.items vs)) :
    ReadsValue ('[' :: cs ++ [']']) (.array vs) := by
  intro rest ts _ hts
  obtain ⟨front, hfront, hstarts, hread⟩ := h rest ts hts
  refine ⟨.openArray :: front, ?_, trivial, fun context => ?_⟩
  · rw [List.append_assoc]
    exact tokens?_cons rfl hfront
  · rw [readValue_openArray hstarts, hread]
    rfl

theorem readsValue_emptyObject {gap : List Char} (h : Blank gap) :
    ReadsValue ('\x7b' :: gap ++ ['\x7d']) (.object []) := by
  intro rest ts _ hts
  refine ⟨.openObject :: .closeObject :: ts, ?_, trivial, fun context => ?_⟩
  · rw [List.append_assoc, List.cons_append]
    refine tokens?_cons rfl ?_
    rw [tokens?_blank h]
    exact tokens?_cons rfl hts
  · rw [readValue]

theorem readsValue_object {cs : List Char} {fs : List (String × Json)}
    (h : ReadAs cs (.fields fs)) : ReadsValue ('\x7b' :: cs ++ ['\x7d']) (.object fs) := by
  intro rest ts _ hts
  obtain ⟨name, front, hfront, hread⟩ := h rest ts hts
  refine ⟨.openObject :: .text name :: .colon :: front, ?_, trivial, fun context => ?_⟩
  · rw [List.append_assoc]
    exact tokens?_cons rfl hfront
  · rw [readValue, hread]
    rfl

theorem readsValue_padded {before cs after : List Char} {v : Json} (hbefore : Blank before)
    (h : ReadsValue cs v) (hafter : Blank after) : ReadsValue (before ++ cs ++ after) v := by
  intro rest ts hrest hts
  rw [List.append_assoc, List.append_assoc, tokens?_blank hbefore]
  exact h _ ts (hrest.append hafter) (by rw [tokens?_blank hafter, hts])

theorem readAs_lastItem {cs : List Char} {v : Json} (h : ReadsValue cs v) :
    ReadAs cs (.items [v]) := by
  intro rest ts hts
  obtain ⟨front, hfront, hstarts, hread⟩ :=
    h (']' :: rest) (.closeArray :: ts) (endsNumber_of_mem (by simp) rest) (tokens?_cons rfl hts)
  refine ⟨front, hfront, hstarts, fun before outer => ?_⟩
  rw [hread, readOn, List.reverse_cons]

theorem readAs_nextItem {cs rest : List Char} {v : Json} {vs : List Json} (h : ReadsValue cs v)
    (hrest : ReadAs rest (.items vs)) : ReadAs (cs ++ ',' :: rest) (.items (v :: vs)) := by
  intro after ts hts
  obtain ⟨tail, htail, -, hreadtail⟩ := hrest after ts hts
  obtain ⟨front, hfront, hstarts, hread⟩ :=
    h (',' :: (rest ++ ']' :: after)) (.comma :: tail) (endsNumber_of_mem (by simp) _)
      (tokens?_cons rfl htail)
  refine ⟨front, by rwa [List.append_assoc], hstarts, fun before outer => ?_⟩
  rw [hread, readOn, hreadtail, List.reverse_cons, List.append_assoc]
  rfl

theorem readAs_field {before cs after rest : List Char} {name : String} {v : Json}
    (hbefore : Blank before) (hname : StringText cs name) (hafter : Blank after)
    (h : ReadsValue rest v) : ReadAs (before ++ cs ++ after ++ ':' :: rest) (.field name v) := by
  intro more ts hmore hts
  obtain ⟨front, hfront, -, hread⟩ := h more ts hmore hts
  refine ⟨front, ?_, hread⟩
  have hcolon : tokens? (':' :: (rest ++ more)) = some (.colon :: front) := tokens?_cons rfl hfront
  simp only [List.append_assoc]
  rw [tokens?_blank hbefore, tokens?_token (takeToken_string hname _), tokens?_blank hafter]
  rw [List.cons_append, hcolon]
  rfl

theorem readAs_lastField {cs : List Char} {name : String} {v : Json}
    (h : ReadAs cs (.field name v)) : ReadAs cs (.fields [(name, v)]) := by
  intro rest ts hts
  obtain ⟨front, hfront, hread⟩ :=
    h ('\x7d' :: rest) (.closeObject :: ts) (endsNumber_of_mem (by simp) rest)
      (tokens?_cons rfl hts)
  refine ⟨name, front, hfront, fun before outer => ?_⟩
  rw [hread, readOn, List.reverse_cons]

theorem readAs_nextField {cs rest : List Char} {name : String} {v : Json}
    {fs : List (String × Json)} (h : ReadAs cs (.field name v)) (hrest : ReadAs rest (.fields fs)) :
    ReadAs (cs ++ ',' :: rest) (.fields ((name, v) :: fs)) := by
  intro after ts hts
  obtain ⟨next, tail, htail, hreadtail⟩ := hrest after ts hts
  obtain ⟨front, hfront, hread⟩ :=
    h (',' :: (rest ++ '\x7d' :: after)) (.comma :: .text next :: .colon :: tail)
      (endsNumber_of_mem (by simp) _) (tokens?_cons rfl htail)
  refine ⟨name, front, by rwa [List.append_assoc], fun before outer => ?_⟩
  rw [hread, readOn, hreadtail, List.reverse_cons, List.append_assoc]
  rfl

theorem readAs_of_spells {cs : List Char} {form : Form} (h : Spells cs form) : ReadAs cs form := by
  induction h with
  | atom h => exact readsValue_atom h
  | string h => exact readsValue_string h
  | emptyArray hgap => exact readsValue_emptyArray hgap
  | array _ ih => exact readsValue_array ih
  | emptyObject hgap => exact readsValue_emptyObject hgap
  | object _ ih => exact readsValue_object ih
  | padded hbefore _ hafter ih => exact readsValue_padded hbefore ih hafter
  | lastItem _ ih => exact readAs_lastItem ih
  | nextItem _ _ ih ihrest => exact readAs_nextItem ih ihrest
  | field hbefore hname hafter _ ih => exact readAs_field hbefore hname hafter ih
  | lastField _ ih => exact readAs_lastField ih
  | nextField _ _ ih ihrest => exact readAs_nextField ih ihrest

theorem read?_of_isTextOf {text : String} {v : Json} (h : IsTextOf text v) :
    read? text = some v := by
  obtain ⟨front, hfront, -, hread⟩ := readAs_of_spells h [] [] endsNumber_nil (by rw [tokens?])
  rw [List.append_nil] at hfront
  rw [read?, hfront]
  exact hread .whole

/-! ## What is read is spelled -/

/-- The texts of tokens. -/
inductive TokenText : List Char → Token → Prop where
  | openArray : TokenText ['['] .openArray
  | closeArray : TokenText [']'] .closeArray
  | openObject : TokenText ['\x7b'] .openObject
  | closeObject : TokenText ['\x7d'] .closeObject
  | colon : TokenText [':'] .colon
  | comma : TokenText [','] .comma
  | text {cs : List Char} {s : String} : StringText cs s → TokenText cs (.text s)
  | atom {cs : List Char} {v : Json} : AtomText cs v → TokenText cs (.atom v)

theorem of_takeToken {cs rest : List Char} {t : Token} (h : takeToken cs = some (t, rest)) :
    ∃ front, TokenText front t ∧ cs = front ++ rest := by
  unfold takeToken at h
  split at h
  case h_7 cs =>
    split at h
    · next ps rest' hparts =>
      cases h
      obtain ⟨body, htext, rfl⟩ := of_parts? hparts
      exact ⟨_, .text (.quoted htext), by simp⟩
    · cases h
  case h_11 =>
    split at h
    · next d rest' htake =>
      cases h
      obtain ⟨front, htext, rfl⟩ := of_takeNumber htake
      exact ⟨front, .atom (.number htext), rfl⟩
    · cases h
  all_goals cases h
  · exact ⟨_, .openArray, rfl⟩
  · exact ⟨_, .closeArray, rfl⟩
  · exact ⟨_, .openObject, rfl⟩
  · exact ⟨_, .closeObject, rfl⟩
  · exact ⟨_, .colon, rfl⟩
  · exact ⟨_, .comma, rfl⟩
  · exact ⟨_, .atom .null, rfl⟩
  · exact ⟨_, .atom .true, rfl⟩
  · exact ⟨_, .atom .false, rfl⟩

theorem blank_cons {c : Char} {cs : List Char} (hc : isSpace c) (h : Blank cs) :
    Blank (c :: cs) := by
  intro d hd
  rcases List.mem_cons.1 hd with rfl | hd
  · exact (isSpace_iff d).1 hc
  · exact h d hd

theorem blank_nil : Blank [] := by
  intro c hc
  cases hc

theorem blank_of_tokens? {cs : List Char} (h : tokens? cs = some []) : Blank cs := by
  fun_induction tokens? cs with
  | case1 => exact blank_nil
  | case2 c cs hspace ih => exact blank_cons hspace (ih h)
  | case3 => cases h
  | case4 c cs _ t rest _ _ _ => simp at h

theorem of_tokens? {cs : List Char} {t : Token} {ts : List Token}
    (h : tokens? cs = some (t :: ts)) :
    ∃ gap front rest, cs = gap ++ front ++ rest ∧ Blank gap ∧ TokenText front t ∧
      tokens? rest = some ts := by
  fun_induction tokens? cs with
  | case1 => cases h
  | case2 c cs hspace ih =>
    obtain ⟨gap, front, rest, rfl, hgap, hfront, hrest⟩ := ih h
    exact ⟨c :: gap, front, rest, rfl, blank_cons hspace hgap, hfront, hrest⟩
  | case3 => cases h
  | case4 c cs _ t' rest htake _ _ =>
    obtain ⟨ts', hrest, heq⟩ := Option.map_eq_some_iff.1 h
    cases heq
    obtain ⟨front, hfront, happend⟩ := of_takeToken htake
    exact ⟨[], front, rest, happend, blank_nil, hfront, hrest⟩

/-- The name of a field and a colon come first just where a field is spelled up to its value. -/
theorem of_tokens?_name {cs : List Char} {name : String} {ts : List Token}
    (h : tokens? cs = some (.text name :: .colon :: ts)) :
    ∃ lead rest, cs = lead ++ rest ∧
      (∀ text v, Spells text (.padded v) → Spells (lead ++ text) (.field name v)) ∧
      tokens? rest = some ts := by
  obtain ⟨before, named, after, rfl, hbefore, hnamed, hafter⟩ := of_tokens? h
  obtain ⟨gap, _, rest, rfl, hgap, hcolon, hrest⟩ := of_tokens? hafter
  cases hcolon
  cases hnamed with
  | text hnamed =>
    refine ⟨before ++ named ++ gap ++ [':'], rest, by simp, fun text v htext => ?_, hrest⟩
    rw [List.append_assoc]
    exact .field hbefore hnamed hgap htext

/-- Whether a value that is read from tokens is spelled at the front of every text of them. -/
def ValueSpelled (ts : List Token) : Prop :=
  ∀ cs context r, tokens? cs = some ts → readValue context ts = some r →
    ∃ gap front rest v ts', cs = gap ++ front ++ rest ∧ Blank gap ∧ Spells front (.value v) ∧
      tokens? rest = some ts' ∧ ts'.length < ts.length ∧ readOn context v ts' = some r

/-- Whether the items of an array that are read from tokens are spelled. -/
def ItemsSpelled (ts : List Token) : Prop :=
  ∀ cs before outer r, tokens? cs = some ts → readValue (.item before outer) ts = some r →
    ∃ front rest vs ts', cs = front ++ ']' :: rest ∧ Spells front (.items vs) ∧
      tokens? rest = some ts' ∧ ts'.length < ts.length ∧
      readOn outer (.array (before.reverse ++ vs)) ts' = some r

/-- Whether the fields of an object that are read from tokens, after the name of the first one, are
spelled. -/
def FieldsSpelled (ts : List Token) : Prop :=
  ∀ cs lead before name outer r, tokens? cs = some ts →
    (∀ text v, Spells text (.padded v) → Spells (lead ++ text) (.field name v)) →
    readValue (.field before name outer) ts = some r →
    ∃ front rest fs ts', lead ++ cs = front ++ '\x7d' :: rest ∧ Spells front (.fields fs) ∧
      tokens? rest = some ts' ∧ ts'.length < ts.length ∧
      readOn outer (.object (before.reverse ++ fs)) ts' = some r

theorem ValueSpelled.items {ts : List Token} (h : ValueSpelled ts)
    (hshorter : ∀ ts' : List Token, ts'.length < ts.length → ItemsSpelled ts') :
    ItemsSpelled ts := by
  intro cs before outer r hts hread
  obtain ⟨gap, front, after, v, ts', rfl, hgap, hfront, hafter, hlt, hread⟩ := h _ _ _ hts hread
  match ts', hread with
  | .comma :: ts', hread =>
    obtain ⟨gap', _, next, rfl, hgap', hcomma, hnext⟩ := of_tokens? hafter
    cases hcomma
    rw [List.length_cons] at hlt
    obtain ⟨more, rest, vs, ts'', rfl, hmore, hrest, hlt', hread⟩ :=
      hshorter ts' (by omega) _ _ _ _ hnext hread
    refine ⟨_, rest, v :: vs, ts'', ?_, .nextItem (.padded hgap hfront hgap') hmore, hrest,
      by omega, ?_⟩
    · simp
    · simpa using hread
  | .closeArray :: ts', hread =>
    obtain ⟨gap', _, rest, rfl, hgap', hclose, hrest⟩ := of_tokens? hafter
    cases hclose
    rw [List.length_cons] at hlt
    refine ⟨_, rest, [v], ts', ?_, .lastItem (.padded hgap hfront hgap'), hrest, by omega, ?_⟩
    · simp
    · rwa [readOn, List.reverse_cons] at hread

theorem ValueSpelled.fields {ts : List Token} (h : ValueSpelled ts)
    (hshorter : ∀ ts' : List Token, ts'.length < ts.length → FieldsSpelled ts') :
    FieldsSpelled ts := by
  intro cs lead before name outer r hts hlead hread
  obtain ⟨gap, front, after, v, ts', rfl, hgap, hfront, hafter, hlt, hread⟩ := h _ _ _ hts hread
  match ts', hread with
  | .comma :: .text next :: .colon :: ts', hread =>
    obtain ⟨gap', _, afterComma, rfl, hgap', hcomma, hafterComma⟩ := of_tokens? hafter
    cases hcomma
    obtain ⟨lead', value, rfl, hlead', hvalue⟩ := of_tokens?_name hafterComma
    simp only [List.length_cons] at hlt
    obtain ⟨more, rest, fs, ts'', hmore, hfields, hrest, hlt', hread⟩ :=
      hshorter ts' (by omega) _ _ _ _ _ _ hvalue hlead' hread
    refine ⟨_, rest, (name, v) :: fs, ts'', ?_,
      .nextField (hlead _ _ (.padded hgap hfront hgap')) hfields, hrest, by omega, ?_⟩
    · simp [hmore]
    · simpa using hread
  | .closeObject :: ts', hread =>
    obtain ⟨gap', _, rest, rfl, hgap', hclose, hrest⟩ := of_tokens? hafter
    cases hclose
    rw [List.length_cons] at hlt
    refine ⟨_, rest, [(name, v)], ts', ?_, .lastField (hlead _ _ (.padded hgap hfront hgap')),
      hrest, by omega, ?_⟩
    · simp
    · rwa [readOn, List.reverse_cons] at hread

theorem valueSpelled_of_shorter {ts : List Token}
    (hshorter : ∀ ts' : List Token, ts'.length < ts.length → ItemsSpelled ts' ∧ FieldsSpelled ts') :
    ValueSpelled ts := by
  intro cs context r hts hread
  unfold readValue at hread
  split at hread
  · next v ts =>
    obtain ⟨gap, front, rest, rfl, hgap, hfront, hrest⟩ := of_tokens? hts
    cases hfront with
    | atom hfront =>
      exact ⟨gap, front, rest, v, ts, rfl, hgap, .atom hfront, hrest, by simp, hread⟩
  · next s ts =>
    obtain ⟨gap, front, rest, rfl, hgap, hfront, hrest⟩ := of_tokens? hts
    cases hfront with
    | text hfront =>
      exact ⟨gap, front, rest, .string s, ts, rfl, hgap, .string hfront, hrest, by simp, hread⟩
  · next ts =>
    obtain ⟨gap, _, after, rfl, hgap, hopen, hafter⟩ := of_tokens? hts
    cases hopen
    obtain ⟨gap', _, rest, rfl, hgap', hclose, hrest⟩ := of_tokens? hafter
    cases hclose
    refine ⟨gap, _, rest, .array [], ts, by simp, hgap, .emptyArray hgap', hrest, ?_, hread⟩
    simp only [List.length_cons]
    omega
  · next ts _ =>
    obtain ⟨gap, _, after, rfl, hgap, hopen, hafter⟩ := of_tokens? hts
    cases hopen
    obtain ⟨front, rest, vs, ts', rfl, hitems, hrest, hlt, hread⟩ :=
      (hshorter ts (by simp)).1 _ _ _ _ hafter hread
    exact ⟨gap, _, rest, .array vs, ts', by simp, hgap, .array hitems, hrest,
      by rw [List.length_cons]; omega, hread⟩
  · next ts =>
    obtain ⟨gap, _, after, rfl, hgap, hopen, hafter⟩ := of_tokens? hts
    cases hopen
    obtain ⟨gap', _, rest, rfl, hgap', hclose, hrest⟩ := of_tokens? hafter
    cases hclose
    refine ⟨gap, _, rest, .object [], ts, by simp, hgap, .emptyObject hgap', hrest, ?_, hread⟩
    simp only [List.length_cons]
    omega
  · next name ts =>
    obtain ⟨gap, _, after, rfl, hgap, hopen, hafter⟩ := of_tokens? hts
    cases hopen
    obtain ⟨lead, value, rfl, hlead, hvalue⟩ := of_tokens?_name hafter
    obtain ⟨front, rest, fs, ts', hfront, hfields, hrest, hlt, hread⟩ :=
      (hshorter ts (by simp only [List.length_cons]; omega)).2 _ _ _ _ _ _ hvalue hlead hread
    refine ⟨gap, _, rest, .object fs, ts', ?_, hgap, .object hfields, hrest,
      by simp only [List.length_cons]; omega, hread⟩
    simp [hfront]
  · cases hread

theorem spelled_of_read (ts : List Token) :
    ValueSpelled ts ∧ ItemsSpelled ts ∧ FieldsSpelled ts := by
  induction hlen : ts.length using Nat.strong_induction_on generalizing ts with
  | _ len ih =>
    subst hlen
    have hvalue : ValueSpelled ts := valueSpelled_of_shorter fun ts' hlt => (ih _ hlt ts' rfl).2
    refine ⟨hvalue, hvalue.items fun ts' hlt => ?_, hvalue.fields fun ts' hlt => ?_⟩
    · exact (ih _ hlt ts' rfl).2.1
    · exact (ih _ hlt ts' rfl).2.2

theorem isTextOf_of_read? {text : String} {v : Json} (h : read? text = some v) :
    IsTextOf text v := by
  obtain ⟨ts, hts, hread⟩ := Option.bind_eq_some_iff.1 h
  obtain ⟨gap, front, rest, v', ts', htext, hgap, hfront, hrest, -, hread⟩ :=
    (spelled_of_read ts).1 _ _ _ hts hread
  match ts', hread with
  | [], hread =>
    rw [readOn, Option.some.injEq] at hread
    rw [IsTextOf, htext, ← hread]
    exact .padded hgap hfront (blank_of_tokens? hrest)

/-- The reader reads a value from a text just where the text spells that value. -/
theorem read?_eq_some_iff {text : String} {v : Json} : read? text = some v ↔ IsTextOf text v :=
  ⟨isTextOf_of_read?, read?_of_isTextOf⟩

end PostfixMath.Json
