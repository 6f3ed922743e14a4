-- Texts as runs of characters: their length in UTF-16 code units, which every column, offset and
-- length that the program shows is counted in; hexadecimal digits; blanks; and texts in quotes.

namespace PostfixMath.Text

/-! ## Code units -/

/-- The code units of one character: two outside the basic plane, one inside it. -/
def unitsOf (c : Char) : Nat := if 0x10000 ≤ c.toNat then 2 else 1

/-- The code units of a run of characters. -/
def units : List Char → Nat
  | [] => 0
  | c :: cs => unitsOf c + units cs

@[simp]
theorem units_nil : units [] = 0 := rfl

@[simp]
theorem units_cons (c : Char) (cs : List Char) : units (c :: cs) = unitsOf c + units cs := rfl

@[simp]
theorem units_append (as bs : List Char) : units (as ++ bs) = units as + units bs := by
  induction as with
  | nil => simp
  | cons a as ih => simp [ih, Nat.add_assoc]

theorem unitsOf_pos (c : Char) : 0 < unitsOf c := by
  unfold unitsOf
  split <;> omega

theorem units_pos {cs : List Char} (h : cs ≠ []) : 0 < units cs := by
  obtain ⟨c, cs, rfl⟩ := List.exists_cons_of_ne_nil h
  have := unitsOf_pos c
  rw [units_cons]
  omega

/-- Of two ways to cut a run in two, the one with fewer units in front cuts first. -/
theorem eq_append_of_units_le {as bs cs ds : List Char} (h : as ++ cs = bs ++ ds)
    (hle : units as ≤ units bs) : ∃ mid, bs = as ++ mid ∧ cs = mid ++ ds := by
  rcases List.append_eq_append_iff.1 h with ⟨mid, hbs, hcs⟩ | ⟨mid, has, hds⟩
  · exact ⟨mid, hbs, hcs⟩
  · cases mid with
    | nil => exact ⟨[], by simp [has], by simp [hds]⟩
    | cons c mid =>
      have := unitsOf_pos c
      rw [has, units_append, units_cons] at hle
      omega

/-- Cuts a run at a unit index: the characters that start before it, and the others. -/
def splitAtUnit : List Char → Nat → List Char × List Char
  | [], _ => ([], [])
  | c :: cs, 0 => ([], c :: cs)
  | c :: cs, n + 1 =>
    let (before, after) := splitAtUnit cs (n + 1 - unitsOf c)
    (c :: before, after)

/-- The first units of a run. A character that is cut in two leaves a replacement character. -/
def takeUnits : Nat → List Char → List Char
  | 0, _ => []
  | _, [] => []
  | n + 1, c :: cs =>
    if unitsOf c ≤ n + 1 then c :: takeUnits (n + 1 - unitsOf c) cs else ['\ufffd']

/-! ## Hexadecimal digits -/

/-- The value of a hexadecimal digit, in either case. -/
def hexValue? (c : Char) : Option Nat :=
  if '0' ≤ c ∧ c ≤ '9' then some (c.toNat - '0'.toNat)
  else if 'a' ≤ c ∧ c ≤ 'f' then some (c.toNat - 'a'.toNat + 10)
  else if 'A' ≤ c ∧ c ≤ 'F' then some (c.toNat - 'A'.toNat + 10)
  else none

/-- The digit of a value, with letters that start at `ten`. -/
def hexDigit (ten : Char) (n : Nat) : Char :=
  if n < 10 then Char.ofNat ('0'.toNat + n) else Char.ofNat (ten.toNat + (n - 10))

/-- The two digits of a byte, with letters that start at `ten`. -/
def hexByte (ten : Char) (n : Nat) : List Char := [hexDigit ten (n / 16), hexDigit ten (n % 16)]

/-! ## Blanks -/

/-- The ranges of blank characters, first and last code point of each. -/
def blankRanges : List (Nat × Nat) :=
  [(0x0009, 0x000D), (0x0020, 0x0020), (0x00A0, 0x00A0), (0x1680, 0x1680), (0x2000, 0x200A),
   (0x2028, 0x2029), (0x202F, 0x202F), (0x205F, 0x205F), (0x3000, 0x3000), (0xFEFF, 0xFEFF)]

def isBlank (c : Char) : Bool :=
  blankRanges.any fun (first, last) => decide (first ≤ c.toNat) && decide (c.toNat ≤ last)

/-- A run of characters without the blanks at its two ends. -/
def trim (cs : List Char) : List Char :=
  ((cs.dropWhile isBlank).reverse.dropWhile isBlank).reverse

/-! ## Replacing -/

/-- Puts `new` in the place of every `old` in a text, from left to right. -/
def replaceAll (old new : List Char) : List Char → List Char
  | [] => []
  | c :: cs =>
    if old.isPrefixOf (c :: cs) then new ++ replaceAll old new (cs.drop (old.length - 1))
    else c :: replaceAll old new cs
termination_by cs => cs.length
decreasing_by
  · simp only [List.length_drop, List.length_cons]
    omega
  · exact Nat.lt_succ_self cs.length

/-! ## Quotes

Control characters are shown by their codes, and the quotes are of a kind that the text does not
hold, where there is one. -/

/-- A character between quotes of this kind. -/
def showChar (mark c : Char) : List Char :=
  if c = '\x08' then ['\\', 'b']
  else if c = '\t' then ['\\', 't']
  else if c = '\n' then ['\\', 'n']
  else if c = '\x0c' then ['\\', 'f']
  else if c = '\r' then ['\\', 'r']
  else if c = '\\' then ['\\', '\\']
  else if c = '\'' ∧ mark = '\'' then ['\\', '\'']
  else if c < ' ' ∨ ('\x7f' ≤ c ∧ c < '\u00a0') then
    '\\' :: 'x' :: hexByte 'A' c.toNat
  else [c]

/-- The kind of quotes for a text: single ones, or double ones or backticks for a text that
holds single ones and not these. -/
def quoteMark (cs : List Char) : Char :=
  if !cs.contains '\'' then '\''
  else if !cs.contains '"' then '"'
  else if !cs.contains '\x60' && !(cs.zip cs.tail).contains ('$', '\x7b') then '\x60'
  else '\''

/-- A run of characters in quotes. -/
def quotedRun (cs : List Char) : List Char :=
  let mark := quoteMark cs
  mark :: cs.flatMap (showChar mark) ++ [mark]

/-- Cuts a run after every line feed. -/
def afterLineFeeds : List Char → List (List Char)
  | [] => []
  | c :: cs =>
    if c = '\n' then [c] :: afterLineFeeds cs
    else
      match afterLineFeeds cs with
      | [] => [[c]]
      | run :: runs => (c :: run) :: runs

/-- A text in quotes. Only the first ten thousand units of a text count. A text that is too
long for one line is quoted line by line, and of a long result only the start is shown. -/
def quoted (text : String) : String :=
  let cs := takeUnits 10000 text.toList
  let runs := if 76 < units cs then afterLineFeeds cs else [cs]
  let shown := " +\n  ".toList.intercalate (runs.map quotedRun)
  if 128 < units shown then String.ofList (takeUnits 128 shown) ++ "..."
  else String.ofList shown

end PostfixMath.Text
