-- An interactive session: a line is an expression or a command, and each answer is
-- followed by a prompt. Input comes in chunks; a chunk is cut into lines, and its complete
-- lines are all handled, even after one of them has closed the session.
--
-- A session keeps no time, and does not remember that a chunk ended with a carriage return. So a
-- carriage return at the end of a chunk ends its line, and a line feed at the front of the next
-- chunk ends one more, which is empty, however soon it comes.
import PostfixMath.Expr.Outline
import PostfixMath.Report
import PostfixMath.Text.Utf8

namespace PostfixMath

/-- Where a session stands: the bytes of an unfinished character, the characters of an
unfinished line, whether trees are shown, and whether the session is closed. -/
structure Session where
  held : List UInt8
  line : List Char
  showTree : Bool
  closed : Bool
deriving DecidableEq, Repr

namespace Session

structure Look where
  view : View
  prompt : String
deriving DecidableEq, Repr

/-- The prompt when no other one is set. -/
def defaultPrompt : String := "rpn2tex> "

/-- The commands that a session knows. -/
def help : String :=
  "Commands:\n" ++
  "  .ast   Toggle AST output\n" ++
  "  .help  Show this help\n" ++
  "  .exit  Leave the REPL\n" ++
  "  <rpn>  Convert an expression, e.g. 5 3 + 2 *"

/-- What a session prints at its start. -/
def banner : String := "📘 rpn2tex REPL\n" ++ help ++ "\n\n"

/-- What a session prints when it closes. -/
def farewell : String := "Goodbye!\n"

/-! ## Lines -/

inductive Entry where
  | exit
  | help
  | toggleTree
  | blank
  | expression (text : String)
deriving DecidableEq, Repr

/-- What a line asks for: commands stand alone between blanks. -/
def Entry.ofLine (line : List Char) : Entry :=
  let trimmed := String.ofList (Text.trim line)
  if trimmed = ".exit" then .exit
  else if trimmed = ".help" then .help
  else if trimmed = ".ast" then .toggleTree
  else if trimmed = "" then .blank
  else .expression (String.ofList line)

/-- Puts an empty line before the lines of a cut text. -/
def endLine : List (List Char) × List Char → List (List Char) × List Char
  | (lines, rest) => ([] :: lines, rest)

/-- Puts a character before the first line of a cut text. -/
def consChar (c : Char) : List (List Char) × List Char → List (List Char) × List Char
  | ([], rest) => ([], c :: rest)
  | (line :: lines, rest) => ((c :: line) :: lines, rest)

/-- Cuts a text into its complete lines and the rest. A line ends at a line feed, at a
carriage return, or at both in this order. -/
def cutLines : List Char → List (List Char) × List Char
  | [] => ([], [])
  | '\r' :: '\n' :: cs => endLine (cutLines cs)
  | c :: cs => if c = '\n' ∨ c = '\r' then endLine (cutLines cs) else consChar c (cutLines cs)

def answer (look : Look) (showTree : Bool) (text : String) : String :=
  match convert text with
  | .ok c => c.latex ++ "\n" ++ if showTree then c.tree.serialize ++ "\n" else ""
  | .error d => Report.ofDiagnostic d text look.view ++ "\n"

/-- Handles one complete line. -/
def handle (look : Look) (s : Session) (line : List Char) : Session × String :=
  match Entry.ofLine line with
  | .exit => if s.closed then (s, "") else ({ s with closed := true }, farewell)
  | .help => (s, help ++ "\n" ++ look.prompt)
  | .toggleTree =>
    ({ s with showTree := !s.showTree },
      "AST output " ++ (if s.showTree then "off" else "on") ++ "\n" ++ look.prompt)
  | .blank => (s, look.prompt)
  | .expression text => (s, answer look s.showTree text ++ look.prompt)

def handleAll (look : Look) (s : Session) : List (List Char) → Session × String
  | [] => (s, "")
  | line :: lines =>
    let (s, out) := s.handle look line
    let (s, more) := s.handleAll look lines
    (s, out ++ more)

/-! ## Chunks -/

def begin (showTree : Bool) : Session := ⟨[], [], showTree, false⟩

/-- The characters of the next chunk, and the bytes to hold back. -/
def decode (held : List UInt8) : Chunk → List Char × List UInt8
  | .text s => (s.toList, held)
  | .bytes bs => Utf8.decodeNext held bs

/-- Takes the next chunk. A closed session takes no more. -/
def feed (look : Look) (s : Session) (chunk : Chunk) : Session × String :=
  if s.closed then (s, "")
  else
    let (cs, held) := decode s.held chunk
    let (lines, rest) := cutLines (s.line ++ cs)
    { s with held := held, line := rest }.handleAll look lines

def feedAll (look : Look) (s : Session) : List Chunk → Session × String
  | [] => (s, "")
  | chunk :: chunks =>
    let (s, out) := s.feed look chunk
    let (s, more) := s.feedAll look chunks
    (s, out ++ more)

/-- What a session prints at the end of its input: the answer to a line that was not
finished, and the farewell. -/
def finish (look : Look) (s : Session) : String :=
  if s.closed then ""
  else
    let (s, out) := s.handleAll look (if s.line = [] then [] else [s.line])
    out ++ if s.closed then "" else farewell

/-- All that a session prints. -/
def run (look : Look) (showTree : Bool) (chunks : List Chunk) : String :=
  let (s, out) := (begin showTree).feedAll look chunks
  banner ++ look.prompt ++ out ++ s.finish look

end Session

end PostfixMath
