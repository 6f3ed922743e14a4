-- The command as a function: from its arguments, its input and the files that it finds to
-- its exit code, what it prints, and the files that it leaves.
import PostfixMath.Session
import PostfixMath.Settings

namespace PostfixMath

/-! ## What a command says

The lines that a command prints for its user, apart from its result. -/

/-- How a command speaks to its user. -/
structure Console where
  color : Bool
  verbose : Bool
deriving DecidableEq, Repr

namespace Console

def info (c : Console) (message : String) : String :=
  Style.blue.paint c.color "ℹ️" ++ "  " ++ message ++ "\n"

def success (c : Console) (message : String) : String :=
  Style.green.paint c.color "✅" ++ " " ++ message ++ "\n"

def error (c : Console) (message : String) : String :=
  Style.red.paint c.color "❌" ++ " " ++ message ++ "\n"

/-- A step of the work, for those who want to know. -/
def debug (c : Console) (message : String) : String :=
  if c.verbose then Style.dim.paint c.color ("🐛 " ++ message) ++ "\n" else ""

end Console

/-! ## Help -/

namespace Help

def title (color : Bool) (text : String) : String := Style.bold.paint color text

/-- A line on an argument: its name, blanks up to a column, and what it does. -/
def entry (color : Bool) (name purpose : String) : String :=
  "  " ++ Style.green.paint color name ++
    String.ofList (List.replicate (24 - name.length) ' ') ++ purpose

def lines (color : Bool) : List String := [
  "",
  title color "rpn2tex" ++ " - Convert Reverse Polish Notation to LaTeX",
  "",
  title color "USAGE:",
  "  rpn2tex <input> [options]",
  "  rpn2tex --interactive",
  "",
  title color "ARGUMENTS:",
  entry color "<input>" "Input file, or - to read stdin",
  "",
  title color "OPTIONS:",
  entry color "-o, --output <file>" "Write LaTeX to a file instead of stdout",
  entry color "--ast" "Print the parsed AST as JSON (stderr)",
  entry color "--tokens" "Print the token stream (stderr)",
  entry color "--context <n>" "Source lines shown around an error (default: 0)",
  entry color "-i, --interactive" "Convert expressions line by line",
  entry color "--color, --no-color" "Force or disable colored output",
  entry color "--verbose, -v" "Enable verbose output",
  entry color "--help, -h" "Show this help",
  "",
  title color "EXAMPLES:",
  "  echo \"5 3 + 2 *\" | rpn2tex -",
  "  rpn2tex expr.rpn -o expr.tex",
  "  rpn2tex expr.rpn --tokens --ast",
  "",
  "Settings may also come from " ++ Settings.fileName ++ " in the working directory."]

def text (color : Bool) : String := String.join ((lines color).map (· ++ "\n"))

end Help

/-! ## Invocations and outcomes -/

namespace Command

/-- How a command is started: its arguments, its environment, whether it speaks to a
terminal, its directory, and the files. -/
structure Invocation where
  args : List String
  environment : List (String × String)
  terminal : Bool
  directory : Path
  files : FileTree
deriving DecidableEq, Repr

/-- What a command leaves behind. -/
structure Outcome where
  code : Nat
  stdout : String
  stderr : String
  files : FileTree
deriving DecidableEq, Repr

/-- One conversion: where it reads and writes, what it shows, and how. -/
structure Job where
  input : String
  output : Option String
  tokens : Bool
  tree : Bool
  console : Console
  view : View
deriving DecidableEq, Repr

/-- What is left to do once arguments and settings are known. -/
inductive Task where
  | stop (code : Nat)
  | session (look : Session.Look) (showTree : Bool)
  | convert (job : Job)
deriving DecidableEq, Repr

/-- A task, and what was printed on the way to it. -/
structure Plan where
  task : Task
  stdout : String
  stderr : String
deriving DecidableEq, Repr

/-! ## The plan -/

/-- Whether colors are on when nothing sets them: on a terminal, unless the environment says
otherwise. -/
def Invocation.color (i : Invocation) : Bool :=
  i.terminal && ((i.environment.lookup "NO_COLOR").getD "") == ""

/-- The plan of a command that cannot start. -/
def Plan.failure (stderr : String) : Plan := ⟨.stop 1, "", stderr⟩

/-- The plan of arguments and settings that are in order. -/
def planWith (i : Invocation) (args : Arguments) (settings : Option Settings) : Plan :=
  let color := (args.color.or (settings.bind Settings.color)).getD i.color
  let contextLines :=
    (args.contextLines.or (settings.bind Settings.contextLines)).getD
      Settings.defaultContextLines
  let view : View := ⟨color, .ofNat contextLines⟩
  let console : Console := ⟨color, args.verbose⟩
  let loaded :=
    if settings.isSome then
      console.debug ("Loaded " ++ Settings.fileName ++ " from " ++ i.directory.text)
    else ""
  if args.help then ⟨.stop 0, Help.text color, ""⟩
  else if args.interactive then ⟨.session ⟨view, Session.defaultPrompt⟩ args.ast, "", loaded⟩
  else
    match args.input with
    | none =>
      .failure (loaded ++ Help.text color ++
        console.error "Input file required (use - for stdin)")
    | some input =>
      let output := args.output.or (settings.bind Settings.output)
      ⟨.convert ⟨input, output, args.tokens, args.ast, console, view⟩, "", loaded⟩

def plan (i : Invocation) : Plan :=
  match Arguments.read i.args with
  | .error e =>
    let console : Console := ⟨i.color, false⟩
    .failure (console.error e.message ++ console.info "Run rpn2tex --help for usage.")
  | .ok args =>
    match Settings.load i.files i.directory with
    | .error e => .failure ((Console.mk (args.color.getD i.color) args.verbose).error e.message)
    | .ok settings => planWith i args settings

/-! ## Conversions -/

/-- Why a job cannot be done, apart from the text that it is to convert. -/
inductive Fault where
  | inputMissing (input : String)
  | inputUnreadable (input : String) (path : Path) (cause : AccessError)
  | outputUnwritable (output : String) (path : Path) (cause : AccessError)
deriving DecidableEq, Repr

def Fault.message : Fault → String
  | .inputMissing input => "Input file not found: " ++ input
  | .inputUnreadable input path cause =>
    "Could not read input file " ++ input ++ ": " ++ cause.message path
  | .outputUnwritable output path cause =>
    "Could not write output file " ++ output ++ ": " ++ cause.message path

/-- A text without one line feed at its end. -/
def dropLineFeed (cs : List Char) : List Char :=
  if cs.getLast? = some '\n' then cs.dropLast else cs

/-- The text that a job is to convert, or why there is none. A lone dash stands for the
input stream, each chunk of which is decoded on its own. -/
def Job.read (job : Job) (files : FileTree) (directory : Path) (stdin : List Chunk) :
    Except Fault (List Char) :=
  if job.input = "-" then .ok (dropLineFeed (stdin.flatMap Chunk.chars))
  else
    let path := directory.resolve job.input
    match files.read path with
    | .ok content => .ok (Utf8.decode content)
    | .error .missing => .error (.inputMissing job.input)
    | .error e => .error (.inputUnreadable job.input path e)

/-- What a job shows of a converted text. -/
def Job.details (job : Job) (c : Conversion) : String :=
  let stats := c.tree.stats
  (if job.tokens then "\n".intercalate (c.tokens.map Token.describe) ++ "\n" else "") ++
    (if job.tree then c.tree.serialize ++ "\n" else "") ++
    job.console.debug ("Parsed " ++ toString stats.operators ++ " operator(s), " ++
      toString stats.numbers ++ " number(s), depth " ++ toString stats.depth)

/-- Delivers the result of a job, to the output stream or to a file. -/
def Job.deliver (job : Job) (files : FileTree) (directory : Path) (latex stderr : String) :
    Outcome :=
  match job.output with
  | none => ⟨0, latex ++ "\n", stderr, files⟩
  | some output =>
    let path := directory.resolve output
    match files.write path (Utf8.encode (latex ++ "\n").toList) with
    | .error e =>
      let fault := Fault.outputUnwritable output path e
      ⟨1, "", stderr ++ job.console.error fault.message, files⟩
    | .ok files => ⟨0, "", stderr ++ job.console.success ("Generated: " ++ output), files⟩

/-- Does a job. -/
def Job.run (job : Job) (files : FileTree) (directory : Path) (stdin : List Chunk)
    (stderr : String) : Outcome :=
  match job.read files directory stdin with
  | .error fault => ⟨1, "", stderr ++ job.console.error fault.message, files⟩
  | .ok cs =>
    let text := String.ofList cs
    let source := if job.input = "-" then "stdin" else job.input
    let stderr := stderr ++
      job.console.debug ("Read " ++ toString (Text.units cs) ++ " characters from " ++ source)
    match convert text with
    | .error d =>
      ⟨1, "", stderr ++ job.console.debug d.describe ++
        Report.ofDiagnostic d text job.view ++ "\n", files⟩
    | .ok c => job.deliver files directory c.latex (stderr ++ job.details c)

/-! ## The whole command -/

/-- Runs a command on an input stream. -/
def run (i : Invocation) (stdin : List Chunk) : Outcome :=
  let p := plan i
  match p.task with
  | .stop code => ⟨code, p.stdout, p.stderr, i.files⟩
  | .session look showTree =>
    ⟨0, p.stdout ++ Session.run look showTree stdin, p.stderr, i.files⟩
  | .convert job => job.run i.files i.directory stdin p.stderr

end Command

end PostfixMath
