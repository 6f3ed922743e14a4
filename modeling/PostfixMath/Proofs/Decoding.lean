-- Bytes of a stream and the characters that they stand for. The bytes of characters are read back
-- as these characters, and a stream of them gives the same text however it is cut into chunks:
-- what is held back between two chunks is always less than one character.
import Mathlib.Data.List.Induction
import Mathlib.Data.List.TakeWhile
import PostfixMath.Session

namespace PostfixMath

namespace Utf8

/-! ## The bytes of one character -/

/-- The bytes of a character, by its number: the first one tells how many there are, and each of the
others has six bits of the number. -/
inductive Encodes (v : Nat) : List UInt8 → Prop where
  | one {b : UInt8} : v < 0x80 → b.toNat = v → Encodes v [b]
  | two {b x : UInt8} : 0x80 ≤ v → v < 0x800 → b.toNat = 0xC0 + v / 64 →
      x.toNat = 0x80 + v % 64 → Encodes v [b, x]
  | three {b x y : UInt8} : 0x800 ≤ v → v < 0x10000 → b.toNat = 0xE0 + v / 4096 →
      x.toNat = 0x80 + v / 64 % 64 → y.toNat = 0x80 + v % 64 → Encodes v [b, x, y]
  | four {b x y z : UInt8} : 0x10000 ≤ v → v < 0x110000 → b.toNat = 0xF0 + v / 262144 →
      x.toNat = 0x80 + v / 4096 % 64 → y.toNat = 0x80 + v / 64 % 64 → z.toNat = 0x80 + v % 64 →
      Encodes v [b, x, y, z]

theorem toNat_lt (c : Char) : c.toNat < 0x110000 := by
  rcases c.valid with h | h
  · exact Nat.lt_of_lt_of_le h (by decide)
  · exact h.2

theorem encodes_encodeChar (c : Char) : Encodes c.toNat (String.utf8EncodeChar c) := by
  have hmax := toNat_lt c
  have hval : c.val.toNat = c.toNat := rfl
  unfold String.utf8EncodeChar
  simp only [hval]
  generalize c.toNat = v at hmax
  split
  · refine Encodes.one (by omega) ?_
    rw [UInt8.toNat_ofNat']
    omega
  · split
    · refine Encodes.two (by omega) (by omega) ?_ ?_ <;> rw [UInt8.toNat_ofNat'] <;> omega
    · split
      · refine Encodes.three (by omega) (by omega) ?_ ?_ ?_ <;> rw [UInt8.toNat_ofNat'] <;> omega
      · refine Encodes.four (by omega) hmax ?_ ?_ ?_ ?_ <;> rw [UInt8.toNat_ofNat'] <;> omega

/-- What the bytes of a character look like: the first one is the only one that does not go on with
a character, and it announces how many there are. -/
structure Spelled (lead : UInt8) (tail : List UInt8) : Prop where
  isLead : isContinuation lead = false
  goesOn : ∀ b ∈ tail, isContinuation b
  size : announced lead = tail.length + 1

theorem isContinuation_iff (b : UInt8) :
    isContinuation b ↔ 0x80 ≤ b.toNat ∧ b.toNat < 0xC0 := by
  unfold isContinuation
  simp only [Bool.and_eq_true, decide_eq_true_eq, UInt8.le_iff_toNat_le, UInt8.lt_iff_toNat_lt]
  rfl

theorem isContinuation_of_toNat {b : UInt8} {n : Nat} (h : b.toNat = 0x80 + n % 64) :
    isContinuation b := by
  rw [isContinuation_iff]
  omega

theorem not_isContinuation {b : UInt8} (h : b.toNat < 0x80 ∨ 0xC0 ≤ b.toNat) :
    isContinuation b = false := by
  rw [← Bool.not_eq_true, isContinuation_iff]
  omega

theorem encodeChar_spelled (c : Char) :
    ∃ lead tail, String.utf8EncodeChar c = lead :: tail ∧ Spelled lead tail := by
  generalize hbytes : String.utf8EncodeChar c = bytes
  have henc := encodes_encodeChar c
  rw [hbytes] at henc
  have hannounced (b : UInt8) : announced b =
      if b.toNat < 0xC0 then 1 else if b.toNat < 0xE0 then 2 else if b.toNat < 0xF0 then 3
      else if b.toNat < 0xF8 then 4 else 1 := by
    unfold announced
    simp only [UInt8.lt_iff_toNat_lt]
    rfl
  cases henc with
  | one hv hb =>
    refine ⟨_, _, rfl, not_isContinuation (by omega), by simp, ?_⟩
    rw [hannounced, if_pos (by omega)]
    rfl
  | two hlow hhigh hb hx =>
    refine ⟨_, _, rfl, not_isContinuation (by omega), ?_, ?_⟩
    · simp [isContinuation_of_toNat hx]
    · rw [hannounced, if_neg (by omega), if_pos (by omega)]
      rfl
  | three hlow hhigh hb hx hy =>
    refine ⟨_, _, rfl, not_isContinuation (by omega), ?_, ?_⟩
    · simp [isContinuation_of_toNat hx, isContinuation_of_toNat hy]
    · rw [hannounced, if_neg (by omega), if_neg (by omega), if_pos (by omega)]
      rfl
  | four hlow hhigh hb hx hy hz =>
    refine ⟨_, _, rfl, not_isContinuation (by omega), ?_, ?_⟩
    · simp [isContinuation_of_toNat hx, isContinuation_of_toNat hy, isContinuation_of_toNat hz]
    · rw [hannounced, if_neg (by omega), if_neg (by omega), if_neg (by omega), if_pos (by omega)]
      rfl

/-! ## Reading one character -/

theorem first_one {b : UInt8} (h : b.toNat < 0x80) : first b = ([Char.ofNat b.toNat], none) := by
  unfold first
  simp only [UInt8.lt_iff_toNat_lt]
  simp (disch := omega) [if_pos]

theorem first_two {b : UInt8} (h : 0xC2 ≤ b.toNat) (h' : b.toNat < 0xE0) :
    first b = ([], some ⟨b.toNat - 0xC0, 1, 0x80, 0xBF⟩) := by
  unfold first
  simp only [UInt8.lt_iff_toNat_lt]
  simp (disch := omega) [if_neg, if_pos]

/-- The first of three bytes leaves room for the second one of the same character. -/
theorem first_three {v : Nat} {lead next : UInt8} (hlow : 0x800 ≤ v) (hhigh : v < 0x10000)
    (hscalar : v < 0xD800 ∨ 0xDFFF < v) (hlead : lead.toNat = 0xE0 + v / 4096)
    (hnext : next.toNat = 0x80 + v / 64 % 64) :
    ∃ low high, first lead = ([], some ⟨v / 4096, 2, low, high⟩) ∧ low ≤ next ∧ next ≤ high := by
  unfold first
  simp only [UInt8.lt_iff_toNat_lt, UInt8.le_iff_toNat_le, ← UInt8.toNat_inj, UInt8.reduceToNat]
  simp (disch := omega) only [if_neg]
  by_cases he0 : lead.toNat = 0xE0
  · refine ⟨0xA0, 0xBF, by rw [if_pos he0, show v / 4096 = 0 by omega], ?_⟩
    simp only [UInt8.reduceToNat]
    omega
  · by_cases hed : lead.toNat = 0xED
    · refine ⟨0x80, 0x9F, by rw [if_neg he0, if_pos hed, show v / 4096 = 0xD by omega], ?_⟩
      simp only [UInt8.reduceToNat]
      omega
    · refine ⟨0x80, 0xBF, ?_, ?_⟩
      · rw [if_neg he0, if_neg hed, if_pos (by omega), hlead, Nat.add_sub_cancel_left]
      · simp only [UInt8.reduceToNat]
        omega

/-- The first of four bytes leaves room for the second one of the same character. -/
theorem first_four {v : Nat} {lead next : UInt8} (hlow : 0x10000 ≤ v) (hhigh : v < 0x110000)
    (hlead : lead.toNat = 0xF0 + v / 262144) (hnext : next.toNat = 0x80 + v / 4096 % 64) :
    ∃ low high, first lead = ([], some ⟨v / 262144, 3, low, high⟩) ∧ low ≤ next ∧ next ≤ high := by
  unfold first
  simp only [UInt8.lt_iff_toNat_lt, UInt8.le_iff_toNat_le, ← UInt8.toNat_inj, UInt8.reduceToNat]
  simp (disch := omega) only [if_neg]
  by_cases hf0 : lead.toNat = 0xF0
  · refine ⟨0x90, 0xBF, by rw [if_pos hf0, show v / 262144 = 0 by omega], ?_⟩
    simp only [UInt8.reduceToNat]
    omega
  · by_cases hf4 : lead.toNat = 0xF4
    · refine ⟨0x80, 0x8F, ?_, ?_⟩
      · rw [if_neg hf0, if_neg (by omega), if_pos hf4, show v / 262144 = 0x4 by omega]
      · simp only [UInt8.reduceToNat]
        omega
    · refine ⟨0x80, 0xBF, by rw [if_neg hf0, if_pos (by omega), hlead, Nat.add_sub_cancel_left], ?_⟩
      simp only [UInt8.reduceToNat]
      omega

theorem decodeFrom_none (b : UInt8) (bs : List UInt8) :
    decodeFrom none (b :: bs) = (first b).1 ++ decodeFrom (first b).2 bs := rfl

theorem decodeFrom_more {low high b : UInt8} (hlow : low ≤ b) (hhigh : b ≤ high)
    (bits missing : Nat) (rest : List UInt8) :
    decodeFrom (some ⟨bits, missing + 2, low, high⟩) (b :: rest) =
      decodeFrom (some ⟨bits * 64 + (b.toNat - 0x80), missing + 1, 0x80, 0xBF⟩) rest := by
  simp [decodeFrom, step, hlow, hhigh]

theorem decodeFrom_last {low high b : UInt8} (hlow : low ≤ b) (hhigh : b ≤ high) (bits : Nat)
    (rest : List UInt8) :
    decodeFrom (some ⟨bits, 1, low, high⟩) (b :: rest) =
      Char.ofNat (bits * 64 + (b.toNat - 0x80)) :: decodeFrom none rest := by
  simp [decodeFrom, step, hlow, hhigh]

/-- The bytes of a character are read as that character, whatever follows them. -/
theorem decodeFrom_encodeChar (c : Char) (rest : List UInt8) :
    decodeFrom none (String.utf8EncodeChar c ++ rest) = c :: decodeFrom none rest := by
  have hchar : Char.ofNat c.toNat = c := Char.ofNat_toNat c
  have hscalar : c.toNat < 0xD800 ∨ 0xDFFF < c.toNat := c.valid.imp_right And.left
  have hgoesOn {b : UInt8} {n : Nat} (h : b.toNat = 0x80 + n % 64) : 0x80 ≤ b ∧ b ≤ 0xBF := by
    simp only [UInt8.le_iff_toNat_le, UInt8.reduceToNat]
    omega
  generalize hbytes : String.utf8EncodeChar c = bytes
  have henc := encodes_encodeChar c
  rw [hbytes] at henc
  cases henc with
  | one hv hb =>
    rw [List.singleton_append, decodeFrom_none, first_one (by omega), hb, hchar]
    rfl
  | two hlow hhigh hb hx =>
    obtain ⟨hx', hx''⟩ := hgoesOn hx
    have hv : (0xC0 + c.toNat / 64 - 0xC0) * 64 + (0x80 + c.toNat % 64 - 0x80) = c.toNat := by omega
    rw [List.cons_append, List.singleton_append, decodeFrom_none, first_two (by omega) (by omega),
      List.nil_append, decodeFrom_last hx' hx'', hb, hx, hv, hchar]
  | three hlow hhigh hb hx hy =>
    obtain ⟨hy', hy''⟩ := hgoesOn hy
    obtain ⟨low, high, hfirst, hx', hx''⟩ := first_three hlow hhigh hscalar hb hx
    have hv : (c.toNat / 4096 * 64 + (0x80 + c.toNat / 64 % 64 - 0x80)) * 64 +
        (0x80 + c.toNat % 64 - 0x80) = c.toNat := by omega
    rw [List.cons_append, List.cons_append, List.singleton_append, decodeFrom_none, hfirst,
      List.nil_append, decodeFrom_more hx' hx'', decodeFrom_last hy' hy'', hx, hy, hv, hchar]
  | four hlow hhigh hb hx hy hz =>
    obtain ⟨hy', hy''⟩ := hgoesOn hy
    obtain ⟨hz', hz''⟩ := hgoesOn hz
    obtain ⟨low, high, hfirst, hx', hx''⟩ := first_four hlow hhigh hb hx
    have hv : ((c.toNat / 262144 * 64 + (0x80 + c.toNat / 4096 % 64 - 0x80)) * 64 +
        (0x80 + c.toNat / 64 % 64 - 0x80)) * 64 + (0x80 + c.toNat % 64 - 0x80) = c.toNat := by
      omega
    rw [List.cons_append, List.cons_append, List.cons_append, List.singleton_append,
      decodeFrom_none, hfirst, List.nil_append, decodeFrom_more hx' hx'', decodeFrom_more hy' hy'',
      decodeFrom_last hz' hz'', hx, hy, hz, hv, hchar]

/-! ## Reading a whole text -/

@[simp]
theorem encode_nil : encode [] = [] := rfl

@[simp]
theorem encode_cons (c : Char) (cs : List Char) :
    encode (c :: cs) = String.utf8EncodeChar c ++ encode cs := by
  simp [encode]

@[simp]
theorem encode_append (as bs : List Char) : encode (as ++ bs) = encode as ++ encode bs := by
  simp [encode]

theorem decodeFrom_encode (cs : List Char) (rest : List UInt8) :
    decodeFrom none (encode cs ++ rest) = cs ++ decodeFrom none rest := by
  induction cs with
  | nil => rfl
  | cons c cs ih => rw [encode_cons, List.append_assoc, decodeFrom_encodeChar, ih, List.cons_append]

theorem decode_encode_append (cs : List Char) (rest : List UInt8) :
    decode (encode cs ++ rest) = cs ++ decode rest :=
  decodeFrom_encode cs rest

/-- Bytes of characters are read as these characters. -/
theorem decode_encode (cs : List Char) : decode (encode cs) = cs := by
  have h := decode_encode_append cs []
  rwa [List.append_nil, show decode [] = [] from rfl, List.append_nil] at h

/-! ## Holding back what is not a whole character -/

/-- Whether bytes are fewer than the first character of a text has. -/
def Short (held : List UInt8) : List Char → Prop
  | [] => held = []
  | c :: _ => held.length < (String.utf8EncodeChar c).length

/-- Where the reader of a stream stands: the bytes that it holds back and those that are still to
come are the rest of a text, and it holds back less than a character. -/
structure Stands (held coming : List UInt8) (text : List Char) : Prop where
  bytes : held ++ coming = encode text
  short : Short held text

theorem encodeChar_ne_nil (c : Char) : String.utf8EncodeChar c ≠ [] := by
  obtain ⟨lead, tail, hbytes, -⟩ := encodeChar_spelled c
  simp [hbytes]

theorem short_nil (text : List Char) : Short [] text := by
  cases text with
  | nil => rfl
  | cons c cs => exact List.length_pos_iff.2 (encodeChar_ne_nil c)

theorem not_short_encode {done : List Char} (h : done ≠ []) (left : List Char) :
    ¬ Short (encode done) (done ++ left) := by
  obtain ⟨c, cs, rfl⟩ := List.exists_cons_of_ne_nil h
  rw [encode_cons, List.cons_append, Short, List.length_append]
  omega

/-- Whatever is held back is the start of one character, and the rest of it is still to come. -/
theorem Stands.cons {held coming : List UInt8} {c : Char} {cs : List Char}
    (h : Stands held coming (c :: cs)) :
    ∃ more, more ≠ [] ∧ String.utf8EncodeChar c = held ++ more ∧ coming = more ++ encode cs := by
  have hbytes := h.bytes
  have hshort : held.length < (String.utf8EncodeChar c).length := h.short
  rw [encode_cons] at hbytes
  rcases List.append_eq_append_iff.1 hbytes with ⟨more, hc, hcoming⟩ | ⟨more, hheld, -⟩
  · refine ⟨more, ?_, hc, hcoming⟩
    rintro rfl
    simp [hc] at hshort
  · rw [hheld, List.length_append] at hshort
    omega

/-- At the end of a stream nothing is held back. -/
theorem Stands.end {held : List UInt8} {text : List Char} (h : Stands held [] text) :
    text = [] := by
  cases text with
  | nil => rfl
  | cons c cs =>
    obtain ⟨more, hmore, -, hcoming⟩ := h.cons
    simp [hmore] at hcoming

/-- Wherever the bytes of a text are cut, there are whole characters before the cut, and less than
one more. -/
theorem exists_cut {front back : List UInt8} {text : List Char} (h : front ++ back = encode text) :
    ∃ done left held, text = done ++ left ∧ front = encode done ++ held ∧
      Stands held back left := by
  induction text generalizing front with
  | nil =>
    obtain ⟨rfl, rfl⟩ := List.append_eq_nil_iff.1 h
    exact ⟨[], [], [], rfl, rfl, rfl, rfl⟩
  | cons c cs ih =>
    by_cases hshort : front.length < (String.utf8EncodeChar c).length
    · exact ⟨[], c :: cs, front, rfl, rfl, h, hshort⟩
    · have hstart : String.utf8EncodeChar c <+: encode (c :: cs) := ⟨encode cs, by simp⟩
      obtain ⟨more, rfl⟩ :=
        List.prefix_of_prefix_length_le hstart ⟨back, h⟩ (Nat.le_of_not_lt hshort)
      rw [encode_cons, List.append_assoc] at h
      obtain ⟨done, left, held, rfl, rfl, hstands⟩ := ih (List.append_cancel_left h)
      exact ⟨c :: done, left, held, rfl, by simp, hstands⟩

/-- What is unfinished is judged by the last byte that does not go on with a character. -/
theorem unfinished_append (front : List UInt8) {lead : UInt8} {tail : List UInt8}
    (hlead : isContinuation lead = false) (htail : ∀ b ∈ tail, isContinuation b) :
    unfinished (front ++ lead :: tail) =
      if tail.length + 1 < announced lead then tail.length + 1 else 0 := by
  have hreverse : (front ++ lead :: tail).reverse = tail.reverse ++ lead :: front.reverse := by simp
  have htaken : (tail.reverse ++ lead :: front.reverse).takeWhile isContinuation =
      tail.reverse := by
    rw [List.takeWhile_append_of_pos (by simpa using htail),
      List.takeWhile_cons_of_neg (by simp [hlead]), List.append_nil]
  have hdropped : (tail.reverse ++ lead :: front.reverse).drop tail.length =
      lead :: front.reverse := List.drop_left' (by simp)
  unfold unfinished
  simp only [hreverse, htaken, hdropped, List.length_reverse]

theorem unfinished_encode (cs : List Char) : unfinished (encode cs) = 0 := by
  cases cs using List.reverseRecOn with
  | nil => rfl
  | append_singleton cs c =>
    obtain ⟨lead, tail, hc, hspelled⟩ := encodeChar_spelled c
    have hbytes : encode (cs ++ [c]) = encode cs ++ lead :: tail := by simp [hc]
    rw [hbytes, unfinished_append _ hspelled.isLead hspelled.goesOn, hspelled.size,
      if_neg (by omega)]

/-- A chunk that starts between two characters is read up to its last whole one. -/
theorem decodeFresh_of_stands (done : List Char) {held coming : List UInt8} {left : List Char}
    (h : Stands held coming left) : decodeFresh (encode done ++ held) = (done, held) := by
  have hunfinished : unfinished (encode done ++ held) = held.length := by
    cases held with
    | nil => rw [List.append_nil, unfinished_encode, List.length_nil]
    | cons lead tail =>
      cases left with
      | nil => exact absurd h.short (by simp [Short])
      | cons c cs =>
        obtain ⟨more, hmore, hc, -⟩ := h.cons
        obtain ⟨lead', tail', hc', hspelled⟩ := encodeChar_spelled c
        rw [hc', List.cons_append, List.cons.injEq] at hc
        obtain ⟨rfl, rfl⟩ := hc
        have hpos := List.length_pos_iff.2 hmore
        rw [unfinished_append _ hspelled.isLead fun b hb => hspelled.goesOn b (by simp [hb]),
          hspelled.size, List.length_append, if_pos (by omega), List.length_cons]
  have hsize : (encode done ++ held).length - held.length = (encode done).length := by simp
  unfold decodeFresh
  simp only [hunfinished, hsize, List.take_left, List.drop_left, decode_encode]

theorem decodeFresh_stands {chunk later : List UInt8} {text : List Char}
    (h : chunk ++ later = encode text) :
    ∃ left, text = (decodeFresh chunk).1 ++ left ∧ Stands (decodeFresh chunk).2 later left := by
  obtain ⟨done, left, held, htext, rfl, hstands⟩ := exists_cut h
  rw [decodeFresh_of_stands done hstands]
  exact ⟨left, htext, hstands⟩

/-- What a chunk does after bytes were held back: it is too short for the rest of their character,
or it has this rest first. -/
theorem decodeNext_of_stands {held chunk later : List UInt8} {c : Char} {cs : List Char}
    (hheld : held ≠ []) (h : Stands held (chunk ++ later) (c :: cs)) :
    (decodeNext held chunk = ([], held ++ chunk) ∧ Stands (held ++ chunk) later (c :: cs)) ∨
    ∃ rest, decodeNext held chunk = (c :: (decodeFresh rest).1, (decodeFresh rest).2) ∧
      rest ++ later = encode cs := by
  obtain ⟨more, hmore, hc, hcoming⟩ := h.cons
  obtain ⟨lead, tail, hc', hspelled⟩ := encodeChar_spelled c
  obtain ⟨first, held, rfl⟩ := List.exists_cons_of_ne_nil hheld
  have hbytes : first :: held ++ more = String.utf8EncodeChar c := hc.symm
  rw [hc', List.cons_append, List.cons.injEq] at hc
  obtain ⟨rfl, rfl⟩ := hc
  have hmissing : announced lead - (lead :: held).length = more.length := by
    rw [hspelled.size, List.length_append, List.length_cons]
    omega
  have hgoesOn : ∀ b ∈ more, isContinuation b := fun b hb => hspelled.goesOn b (by simp [hb])
  have hmorePrefix : more <+: chunk ++ later := ⟨encode cs, hcoming.symm⟩
  have hchunkPrefix : chunk <+: chunk ++ later := ⟨later, rfl⟩
  unfold decodeNext
  simp only [hmissing]
  by_cases hshort : chunk.length < more.length
  · obtain ⟨after, rfl⟩ :=
      List.prefix_of_prefix_length_le hchunkPrefix hmorePrefix (Nat.le_of_lt hshort)
    have hall : (chunk.take (chunk ++ after).length).takeWhile isContinuation = chunk := by
      rw [List.take_of_length_le (Nat.le_of_lt hshort), List.takeWhile_eq_self_iff]
      exact fun b hb => hgoesOn b (by simp [hb])
    refine Or.inl ⟨?_, ?_, ?_⟩
    · rw [hall, List.drop_length, if_pos ⟨hshort, rfl⟩]
    · rw [List.append_assoc]
      exact h.bytes
    · show (lead :: held ++ chunk).length < (String.utf8EncodeChar c).length
      rw [← hbytes, List.length_append, List.length_append]
      omega
  · obtain ⟨rest, rfl⟩ :=
      List.prefix_of_prefix_length_le hmorePrefix hchunkPrefix (Nat.le_of_not_lt hshort)
    have hall : ((more ++ rest).take more.length).takeWhile isContinuation = more := by
      rw [List.take_left, List.takeWhile_eq_self_iff]
      exact hgoesOn
    have hchar : decode (lead :: held ++ more) = [c] := by
      rw [hbytes, ← decode_encode [c], encode_cons, encode_nil, List.append_nil]
    refine Or.inr ⟨rest, ?_, ?_⟩
    · rw [hall, List.drop_left, if_neg (by simp), hchar]
      rfl
    · rw [List.append_assoc] at hcoming
      exact List.append_cancel_left hcoming

/-- Reading a chunk moves on in the text by the characters that it gives. -/
theorem decodeNext_stands {held chunk later : List UInt8} {text : List Char}
    (h : Stands held (chunk ++ later) text) :
    ∃ left, text = (decodeNext held chunk).1 ++ left ∧
      Stands (decodeNext held chunk).2 later left := by
  by_cases hheld : held = []
  · subst hheld
    exact decodeFresh_stands h.bytes
  · cases text with
    | nil => exact absurd h.short hheld
    | cons c cs =>
      rcases decodeNext_of_stands hheld h with ⟨hnext, hstands⟩ | ⟨rest, hnext, hrest⟩
      · rw [hnext]
        exact ⟨c :: cs, rfl, hstands⟩
      · obtain ⟨left, hleft, hstands⟩ := decodeFresh_stands hrest
        rw [hnext]
        exact ⟨left, by rw [List.cons_append, ← hleft], hstands⟩

end Utf8

namespace Session

open Utf8

/-- Text comes only between two characters of a stream, or it is empty. -/
theorem decode_text_stands {held later : List UInt8} {s : String} {text : List Char}
    (h : Stands held (encode s.toList ++ later) text) :
    ∃ left, text = s.toList ++ left ∧ Stands held later left := by
  by_cases hheld : held = []
  · subst hheld
    have htext : text = s.toList ++ Utf8.decode later := by
      rw [← decode_encode text, ← h.bytes, List.nil_append, decode_encode_append]
    refine ⟨Utf8.decode later, htext, ?_, short_nil _⟩
    have hbytes := h.bytes
    rw [htext, encode_append] at hbytes
    exact List.append_cancel_left hbytes
  · cases text with
    | nil => exact absurd h.short hheld
    | cons c cs =>
      cases hs : s.toList with
      | nil =>
        rw [hs] at h
        exact ⟨c :: cs, rfl, h⟩
      | cons d ds =>
        -- the next byte has to go on with a character, and the first byte of a text does not
        obtain ⟨more, hmore, hc, hcoming⟩ := h.cons
        obtain ⟨lead, tail, hc', hspelled⟩ := encodeChar_spelled c
        obtain ⟨lead', tail', hd, hspelled'⟩ := encodeChar_spelled d
        obtain ⟨first, held, rfl⟩ := List.exists_cons_of_ne_nil hheld
        obtain ⟨next, more, rfl⟩ := List.exists_cons_of_ne_nil hmore
        rw [hc', List.cons_append, List.cons.injEq] at hc
        rw [hs, encode_cons, hd] at hcoming
        have hnext : lead' = next := (List.cons.inj hcoming).1
        have := hspelled.goesOn next (by simp [hc.2])
        rw [← hnext, hspelled'.isLead] at this
        cases this

/-- Reading any chunk moves on in the text by the characters that it gives. -/
theorem decode_stands {held later : List UInt8} {chunk : Chunk} {text : List Char}
    (h : Stands held (chunk.toBytes ++ later) text) :
    ∃ left, text = (decode held chunk).1 ++ left ∧ Stands (decode held chunk).2 later left := by
  cases chunk with
  | text s => exact decode_text_stands h
  | bytes bs => exact decodeNext_stands h

end Session

end PostfixMath
