-- UTF-8 bytes and the text they stand for. A byte sequence that cannot be completed to a
-- character becomes one replacement character, as long as it could have been completed.
-- A stream of bytes is decoded chunk by chunk, and a character may lie across chunks.

namespace PostfixMath.Utf8

/-! ## Whole texts -/

/-- What stands for bytes that are no character. -/
def replacement : Char := '�'

/-- Inside a character: the bits so far, the bytes still to come, and the bounds of the next
byte. -/
structure Open where
  bits : Nat
  missing : Nat
  low : UInt8
  high : UInt8
deriving DecidableEq, Repr

/-- Between characters there is nothing open. -/
abbrev State := Option Open

/-- What a byte does between two characters. -/
def first (b : UInt8) : List Char × State :=
  if b < 0x80 then ([Char.ofNat b.toNat], none)
  else if b < 0xC2 then ([replacement], none)
  else if b < 0xE0 then ([], some ⟨b.toNat - 0xC0, 1, 0x80, 0xBF⟩)
  else if b = 0xE0 then ([], some ⟨0x0, 2, 0xA0, 0xBF⟩)
  else if b = 0xED then ([], some ⟨0xD, 2, 0x80, 0x9F⟩)
  else if b < 0xF0 then ([], some ⟨b.toNat - 0xE0, 2, 0x80, 0xBF⟩)
  else if b = 0xF0 then ([], some ⟨0x0, 3, 0x90, 0xBF⟩)
  else if b < 0xF4 then ([], some ⟨b.toNat - 0xF0, 3, 0x80, 0xBF⟩)
  else if b = 0xF4 then ([], some ⟨0x4, 3, 0x80, 0x8F⟩)
  else ([replacement], none)

/-- What the next byte does. A byte out of bounds ends the open character and starts anew. -/
def step (state : State) (b : UInt8) : List Char × State :=
  match state with
  | none => first b
  | some o =>
    if o.low ≤ b ∧ b ≤ o.high then
      let bits := o.bits * 64 + (b.toNat - 0x80)
      if o.missing = 1 then ([Char.ofNat bits], none)
      else ([], some ⟨bits, o.missing - 1, 0x80, 0xBF⟩)
    else
      let (cs, state) := first b
      (replacement :: cs, state)

/-- The characters of the bytes that follow a state. -/
def decodeFrom (state : State) : List UInt8 → List Char
  | [] => if state.isSome then [replacement] else []
  | b :: bs =>
    let (cs, state) := step state b
    cs ++ decodeFrom state bs

def decode (bytes : List UInt8) : List Char := decodeFrom none bytes

def encode (cs : List Char) : List UInt8 := cs.flatMap String.utf8EncodeChar

/-! ## Streams -/

/-- Whether a byte goes on with a character. -/
def isContinuation (b : UInt8) : Bool := 0x80 ≤ b && b < 0xC0

/-- The bytes of a character that starts with this one, as its high bits announce. -/
def announced (b : UInt8) : Nat :=
  if b < 0xC0 then 1
  else if b < 0xE0 then 2
  else if b < 0xF0 then 3
  else if b < 0xF8 then 4
  else 1

/-- The number of bytes at the end that may be the start of a longer character. -/
def unfinished (bytes : List UInt8) : Nat :=
  let tail := bytes.reverse.takeWhile isContinuation
  match bytes.reverse.drop tail.length with
  | [] => 0
  | lead :: _ => if tail.length + 1 < announced lead then tail.length + 1 else 0

/-- The characters of a chunk that starts between characters, and the bytes to hold back. -/
def decodeFresh (bytes : List UInt8) : List Char × List UInt8 :=
  let size := bytes.length - unfinished bytes
  (decode (bytes.take size), bytes.drop size)

/-- The characters of the next chunk after held bytes, and the bytes to hold back now. The
held bytes are decoded once they are complete or cannot be completed. -/
def decodeNext (held chunk : List UInt8) : List Char × List UInt8 :=
  match held with
  | [] => decodeFresh chunk
  | lead :: _ =>
    let missing := announced lead - held.length
    let more := (chunk.take missing).takeWhile isContinuation
    let rest := chunk.drop more.length
    if more.length < missing ∧ rest = [] then ([], held ++ more)
    else
      let (cs, held') := decodeFresh rest
      (decode (held ++ more) ++ cs, held')

end PostfixMath.Utf8

namespace PostfixMath

/-- A piece of an input stream: text, or bytes that are still to be decoded. -/
inductive Chunk where
  | text (s : String)
  | bytes (bs : List UInt8)
deriving DecidableEq, Repr

namespace Chunk

/-- The characters of a chunk that is decoded on its own. -/
def chars : Chunk → List Char
  | .text s => s.toList
  | .bytes bs => Utf8.decode bs

def toBytes : Chunk → List UInt8
  | .text s => Utf8.encode s.toList
  | .bytes bs => bs

end Chunk

end PostfixMath
