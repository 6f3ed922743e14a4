-- Which bytes stand for which characters. A small byte, below 0x80, always stands for itself, and
-- every other character that is read from bytes is a large one. So all ways to read the same bytes
-- in chunks agree up to the first large byte, and have a large character there.
import PostfixMath.Proofs.Decoding

namespace PostfixMath

namespace Utf8

/-! ## Small and large -/

/-- Whether a byte is a character by itself. -/
def isSmall (b : UInt8) : Bool := b.toNat < 0x80

/-- The character that a small byte stands for. -/
def charOf (b : UInt8) : Char := Char.ofNat b.toNat

/-- Whether a character needs more than one byte. -/
def Large (c : Char) : Prop := 0x80 ≤ c.toNat

theorem isSmall_iff (b : UInt8) : isSmall b ↔ b.toNat < 0x80 := by
  simp [isSmall]

theorem large_replacement : Large replacement := by
  unfold Large
  decide

theorem large_ofNat {v : Nat} (hlow : 0x80 ≤ v) (hscalar : v < 0xD800 ∨ 0xDFFF < v)
    (hhigh : v < 0x110000) : Large (Char.ofNat v) := by
  have hvalid : v.isValidChar := by
    unfold Nat.isValidChar
    omega
  rw [Large, Char.ofNat, dif_pos hvalid]
  exact hlow

/-! ## Open characters -/

/-- Whether all bytes that can complete an open character make a large one. -/
def Awaits : Nat → Nat → UInt8 → UInt8 → Prop
  | 0, _, _, _ => False
  | 1, bits, low, high =>
    ∀ b : UInt8, low ≤ b → b ≤ high → Large (Char.ofNat (bits * 64 + (b.toNat - 0x80)))
  | missing + 2, bits, low, high =>
    ∀ b : UInt8, low ≤ b → b ≤ high →
      Awaits (missing + 1) (bits * 64 + (b.toNat - 0x80)) 0x80 0xBF

/-- Whether an open character can only become a large one. -/
def Open.Sound (o : Open) : Prop := Awaits o.missing o.bits o.low o.high

/-- Whether bits are those of a large character but for the last six. -/
def Fits (bits : Nat) : Prop := 2 ≤ bits ∧ (bits < 0x360 ∨ 0x37F < bits) ∧ bits < 0x4400

theorem awaits_last {bits : Nat} (h : Fits bits) : Awaits 1 bits 0x80 0xBF := by
  intro b hb hb'
  simp only [UInt8.le_iff_toNat_le, UInt8.reduceToNat] at hb hb'
  unfold Fits at h
  apply large_ofNat <;> omega

theorem sound_two {bits : Nat} (h : Fits bits) : Open.Sound ⟨bits, 1, 0x80, 0xBF⟩ :=
  awaits_last h

theorem sound_three {bits : Nat} {low high : UInt8}
    (h : ∀ x, low.toNat ≤ x → x ≤ high.toNat → Fits (bits * 64 + (x - 0x80))) :
    Open.Sound ⟨bits, 2, low, high⟩ := by
  intro b hb hb'
  rw [UInt8.le_iff_toNat_le] at hb hb'
  exact awaits_last (h b.toNat hb hb')

theorem sound_four {bits : Nat} {low high : UInt8}
    (h : ∀ x, low.toNat ≤ x → x ≤ high.toNat → ∀ y, 0x80 ≤ y → y ≤ 0xBF →
      Fits ((bits * 64 + (x - 0x80)) * 64 + (y - 0x80))) :
    Open.Sound ⟨bits, 3, low, high⟩ := by
  intro b hb hb' d hd hd'
  rw [UInt8.le_iff_toNat_le] at hb hb' hd hd'
  exact awaits_last (h b.toNat hb hb' d.toNat hd hd')

/-! ## What a byte does -/

theorem first_small {b : UInt8} (h : isSmall b) : first b = ([charOf b], none) :=
  first_one ((isSmall_iff b).1 h)

/-- A large byte between two characters is none by itself, or opens one. The cases are those of the
first byte, in the order in which they are told apart. -/
theorem first_large {b : UInt8} (h : ¬ isSmall b) :
    first b = ([replacement], none) ∨ ∃ o : Open, first b = ([], some o) ∧ o.Sound := by
  rw [isSmall_iff] at h
  unfold first
  simp only [UInt8.lt_iff_toNat_lt, ← UInt8.toNat_inj, UInt8.reduceToNat]
  rw [if_neg h]
  split
  · exact Or.inl rfl
  split
  · exact Or.inr ⟨_, rfl, sound_two (by unfold Fits; omega)⟩
  split
  · exact Or.inr ⟨_, rfl, sound_three (by simp only [UInt8.reduceToNat, Fits]; omega)⟩
  split
  · exact Or.inr ⟨_, rfl, sound_three (by simp only [UInt8.reduceToNat, Fits]; omega)⟩
  split
  · exact Or.inr ⟨_, rfl, sound_three (by simp only [UInt8.reduceToNat, Fits]; omega)⟩
  split
  · exact Or.inr ⟨_, rfl, sound_four (by simp only [UInt8.reduceToNat, Fits]; omega)⟩
  split
  · exact Or.inr ⟨_, rfl, sound_four (by simp only [UInt8.reduceToNat, Fits]; omega)⟩
  split
  · exact Or.inr ⟨_, rfl, sound_four (by simp only [UInt8.reduceToNat, Fits]; omega)⟩
  · exact Or.inl rfl

/-- A byte that goes on with an open character completes it to a large one, or leaves it open. -/
theorem step_within {o : Open} (ho : o.Sound) {b : UInt8} (hb : o.low ≤ b ∧ b ≤ o.high) :
    (∃ c, step (some o) b = ([c], none) ∧ Large c) ∨
      ∃ o' : Open, step (some o) b = ([], some o') ∧ o'.Sound := by
  obtain ⟨bits, missing, low, high⟩ := o
  have hstep : step (some ⟨bits, missing, low, high⟩) b =
      if missing = 1 then ([Char.ofNat (bits * 64 + (b.toNat - 0x80))], none)
      else ([], some ⟨bits * 64 + (b.toNat - 0x80), missing - 1, 0x80, 0xBF⟩) := if_pos hb
  have hawaits : Awaits missing bits low high := ho
  rw [hstep]
  match missing with
  | 0 => exact hawaits.elim
  | 1 => exact Or.inl ⟨_, rfl, hawaits b hb.1 hb.2⟩
  | missing + 2 => exact Or.inr ⟨_, rfl, hawaits b hb.1 hb.2⟩

/-- Any other byte ends it. -/
theorem step_beyond {o : Open} {b : UInt8} (hb : ¬ (o.low ≤ b ∧ b ≤ o.high)) :
    step (some o) b = (replacement :: (first b).1, (first b).2) :=
  if_neg hb

/-! ## What bytes begin with -/

theorem decodeFrom_cons (state : State) (b : UInt8) (bs : List UInt8) :
    decodeFrom state (b :: bs) = (step state b).1 ++ decodeFrom (step state b).2 bs := rfl

/-- An open character is read as a large one, whatever bytes follow. -/
theorem decodeFrom_open {o : Open} (ho : o.Sound) (bs : List UInt8) :
    ∃ c cs, decodeFrom (some o) bs = c :: cs ∧ Large c := by
  induction bs generalizing o with
  | nil => exact ⟨replacement, [], rfl, large_replacement⟩
  | cons b bs ih =>
    rw [decodeFrom_cons]
    by_cases hb : o.low ≤ b ∧ b ≤ o.high
    · rcases step_within ho hb with ⟨c, hstep, hc⟩ | ⟨o', hstep, ho'⟩
      · rw [hstep]
        exact ⟨c, _, rfl, hc⟩
      · rw [hstep]
        exact ih ho'
    · rw [step_beyond hb]
      exact ⟨replacement, _, rfl, large_replacement⟩

/-- What a text has in common with bytes that it is read from: the characters of the small bytes
before the first large one, and then a large character. -/
inductive Opening : List UInt8 → List Char → Prop where
  | nil : Opening [] []
  | small {b : UInt8} {bs : List UInt8} {cs : List Char} :
      isSmall b → Opening bs cs → Opening (b :: bs) (charOf b :: cs)
  | large {b : UInt8} {bs : List UInt8} {c : Char} {cs : List Char} :
      ¬ isSmall b → Large c → Opening (b :: bs) (c :: cs)

theorem opening_decode (bs : List UInt8) : Opening bs (decode bs) := by
  unfold decode
  induction bs with
  | nil => exact .nil
  | cons b bs ih =>
    rw [decodeFrom_none]
    by_cases hb : isSmall b
    · rw [first_small hb]
      exact .small hb ih
    · rcases first_large hb with hfirst | ⟨o, hfirst, ho⟩
      · rw [hfirst]
        exact .large hb large_replacement
      · obtain ⟨c, cs, hopen, hc⟩ := decodeFrom_open ho bs
        rw [hfirst, List.nil_append, hopen]
        exact .large hb hc

theorem Opening.append {as bs : List UInt8} {cs ds : List Char} (h : Opening as cs)
    (h' : Opening bs ds) : Opening (as ++ bs) (cs ++ ds) := by
  induction h with
  | nil => exact h'
  | small hb _ ih => exact .small hb ih
  | large hb hc => exact .large hb hc

/-- Two texts that are read from the same bytes are the same up to their first large character. -/
theorem Opening.agree {bs : List UInt8} {cs ds : List Char} (h : Opening bs cs)
    (h' : Opening bs ds) :
    cs = ds ∨ ∃ front c cs' d ds', cs = front ++ c :: cs' ∧ ds = front ++ d :: ds' ∧
      Large c ∧ Large d := by
  induction h generalizing ds with
  | nil =>
    cases h'
    exact Or.inl rfl
  | @small b bs cs hb _ ih =>
    cases h' with
    | small _ h' =>
      rcases ih h' with rfl | ⟨front, c, cs', d, ds', rfl, rfl, hc, hd⟩
      · exact Or.inl rfl
      · exact Or.inr ⟨charOf b :: front, c, cs', d, ds', rfl, rfl, hc, hd⟩
    | large hb' _ => exact absurd hb hb'
  | @large b bs c cs hb hc =>
    cases h' with
    | small hb' _ => exact absurd hb' hb
    | @large _ _ d ds _ hd => exact Or.inr ⟨[], c, cs, d, ds, rfl, rfl, hc, hd⟩

/-! ## All characters of bytes -/

/-- Whether a byte gives no character but large ones and its own, and opens no other than a large
one. -/
def GivesLarge (b : UInt8) (result : List Char × State) : Prop :=
  (∀ c ∈ result.1, Large c ∨ isSmall b ∧ c = charOf b) ∧ ∀ o ∈ result.2, o.Sound

theorem givesLarge_first (b : UInt8) : GivesLarge b (first b) := by
  by_cases hb : isSmall b
  · rw [first_small hb]
    exact ⟨by simp [hb], by simp⟩
  · rcases first_large hb with hfirst | ⟨o, hfirst, ho⟩
    · rw [hfirst]
      exact ⟨by simp [large_replacement], by simp⟩
    · rw [hfirst]
      exact ⟨by simp, by simpa using ho⟩

theorem givesLarge_step {state : State} (h : ∀ o ∈ state, o.Sound) (b : UInt8) :
    GivesLarge b (step state b) := by
  obtain ⟨hchars, hopen⟩ := givesLarge_first b
  match state with
  | none => exact ⟨hchars, hopen⟩
  | some o =>
    have ho := h o rfl
    by_cases hb : o.low ≤ b ∧ b ≤ o.high
    · rcases step_within ho hb with ⟨c, hstep, hc⟩ | ⟨o', hstep, ho'⟩
      · rw [hstep]
        exact ⟨by simp [hc], by simp⟩
      · rw [hstep]
        exact ⟨by simp, by simpa using ho'⟩
    · rw [step_beyond hb]
      refine ⟨fun c hc => ?_, hopen⟩
      rcases List.mem_cons.1 hc with rfl | hc
      · exact Or.inl large_replacement
      · exact hchars c hc

/-- The only characters that are not large are those of small bytes. -/
theorem mem_decodeFrom {state : State} (hstate : ∀ o ∈ state, o.Sound) {bs : List UInt8} {c : Char}
    (h : c ∈ decodeFrom state bs) : Large c ∨ ∃ b ∈ bs, isSmall b ∧ c = charOf b := by
  induction bs generalizing state with
  | nil =>
    unfold decodeFrom at h
    split at h
    · rw [List.mem_singleton.1 h]
      exact Or.inl large_replacement
    · cases h
  | cons b bs ih =>
    obtain ⟨hchars, hopen⟩ := givesLarge_step hstate b
    rw [decodeFrom_cons, List.mem_append] at h
    rcases h with h | h
    · exact (hchars c h).imp_right fun hb => ⟨b, by simp, hb⟩
    · rcases ih hopen h with hc | ⟨b', hb', hc⟩
      · exact Or.inl hc
      · exact Or.inr ⟨b', by simp [hb'], hc⟩

theorem mem_decode {bs : List UInt8} {c : Char} (h : c ∈ decode bs) :
    Large c ∨ ∃ b ∈ bs, isSmall b ∧ c = charOf b := by
  have hnone : ∀ o ∈ (none : State), o.Sound := by simp
  exact mem_decodeFrom hnone h

end Utf8

namespace Chunk

/-- A chunk of text is decoded as its bytes are. -/
theorem decode_toBytes (chunk : Chunk) : Utf8.decode chunk.toBytes = chunk.chars := by
  cases chunk with
  | text s => exact Utf8.decode_encode s.toList
  | bytes bs => rfl

theorem opening_chars (chunk : Chunk) : Utf8.Opening chunk.toBytes chunk.chars := by
  rw [← decode_toBytes]
  exact Utf8.opening_decode chunk.toBytes

/-- However a stream is cut into chunks, its text begins as its bytes do. -/
theorem opening_flatMap_chars (chunks : List Chunk) :
    Utf8.Opening (chunks.flatMap toBytes) (chunks.flatMap chars) := by
  induction chunks with
  | nil => exact .nil
  | cons chunk chunks ih =>
    rw [List.flatMap_cons, List.flatMap_cons]
    exact chunk.opening_chars.append ih

end Chunk

end PostfixMath
