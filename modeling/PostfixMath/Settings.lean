-- What a user can set: the settings that a JSON file of a directory may hold, and the arguments of a
-- command line, which are options with values, flags, and one input.
import PostfixMath.Files
import PostfixMath.Json.Reader

namespace PostfixMath

/-- The settings of a working directory. Each one may be left open. -/
structure Settings where
  color : Option Bool
  contextLines : Option Nat
  output : Option String
deriving DecidableEq, Repr

inductive Settings.Field where
  | color
  | contextLines
  | output
deriving DecidableEq, Repr

/-- Why there are no settings. -/
inductive Settings.Error where
  | unreadable (path : Path) (cause : AccessError)
  | notJson
  | notObject
  | invalid (fields : List Settings.Field)
deriving DecidableEq, Repr

namespace Settings

/-- The name of the file that holds the settings. -/
def fileName : String := "rpn2tex.config.json"

/-- The lines around an error that are shown when nothing is set. -/
def defaultContextLines : Nat := 0

def Field.rule : Field → String
  | .color => "color must be a boolean"
  | .contextLines => "contextLines must be a non-negative integer"
  | .output => "output must be a non-empty string"

/-- A list of complaints about the file. -/
def complaints (lines : List String) : String :=
  "Invalid " ++ fileName ++ ":\n" ++ "\n".intercalate (lines.map ("  - " ++ ·))

/-- The text of an error. What a JSON parser says about a text that it cannot read is its own
wording, which is not modelled: `<json-error>` stands for it. -/
def Error.message : Error → String
  | .unreadable path cause => "Could not read " ++ fileName ++ ": " ++ cause.message path
  | .notJson => "Could not read " ++ fileName ++ ": <json-error>"
  | .notObject => complaints ["expected a JSON object"]
  | .invalid fields => complaints (fields.map Field.rule)

/-! ## The check -/

/-- The count of a JSON number that is one. -/
def count? : Json → Option Nat
  | .number d => d.toCount?
  | _ => none

/-- The text of a JSON string that is not empty. -/
def nonEmpty? : Json → Option String
  | .string s => if s = "" then none else some s
  | _ => none

/-- The value of a field. A field that is left out leaves its setting open, and a field of
the wrong kind has no value. -/
def value? {α : Type} (read : Json → Option α) : Option Json → Option (Option α)
  | none => some none
  | some v => (read v).map some

/-- The settings of an object, or every field that is wrong. -/
def check (raw : Json) : Except Error Settings :=
  match raw with
  | .object _ =>
    let color := value? Json.bool? (raw.field? "color")
    let contextLines := value? count? (raw.field? "contextLines")
    let output := value? nonEmpty? (raw.field? "output")
    match color, contextLines, output with
    | some color, some contextLines, some output => .ok ⟨color, contextLines, output⟩
    | _, _, _ =>
      .error (.invalid
        ((if color.isNone then [.color] else []) ++
          (if contextLines.isNone then [.contextLines] else []) ++
          (if output.isNone then [.output] else [])))
  | _ => .error .notObject

def toJson (s : Settings) : Json :=
  .object
    ((s.color.map fun b => ("color", .bool b)).toList ++
      (s.contextLines.map fun n => ("contextLines", .number (.ofRat n))).toList ++
      (s.output.map fun o => ("output", .string o)).toList)

/-! ## The settings file -/

/-- The settings in the content of a file. -/
def ofContent (content : List UInt8) : Except Error Settings :=
  match Json.read? (String.ofList (Utf8.decode content)) with
  | none => .error .notJson
  | some raw => check raw

/-- The settings of a directory, if it has a file for them. -/
def load (files : FileTree) (directory : Path) : Except Error (Option Settings) :=
  let path := directory ++ [fileName]
  if files.has path then
    match files.read path with
    | .error e => .error (.unreadable path e)
    | .ok content => (ofContent content).map some
  else .ok none

end Settings

/-! ## Arguments -/

/-- What the arguments ask for. -/
structure Arguments where
  input : Option String
  output : Option String
  color : Option Bool
  contextLines : Option Nat
  ast : Bool
  tokens : Bool
  interactive : Bool
  verbose : Bool
  help : Bool
deriving DecidableEq, Repr

/-- Why arguments make no sense. -/
inductive UsageError where
  | missingValue (option : String)
  | invalidContext (value : String)
  | unknownOption (arg : String)
  | unexpected (arg : String)
deriving DecidableEq, Repr

def UsageError.message : UsageError → String
  | .missingValue option => "Missing value for " ++ option
  | .invalidContext value =>
    "Invalid context: " ++ value ++ ". Expected a non-negative integer"
  | .unknownOption arg => "Unknown option: " ++ arg
  | .unexpected arg => "Unexpected argument: " ++ arg

namespace Arguments

def empty : Arguments :=
  ⟨none, none, none, none, false, false, false, false, false⟩

/-- An option that takes the argument after it. -/
inductive Valued where
  | output
  | context
deriving DecidableEq, Repr

/-- The option of an argument that takes a value. -/
def valued? : String → Option Valued
  | "-o" | "--output" => some .output
  | "--context" => some .context
  | _ => none

def setValued (a : Arguments) (value : String) : Valued → Except UsageError Arguments
  | .output => .ok { a with output := some value }
  | .context =>
    match (Decimal.ofTyped? value).bind Decimal.toCount? with
    | some n => .ok { a with contextLines := some n }
    | none => .error (.invalidContext value)

/-- Sets the flag of an argument that is one. -/
def setFlag? (a : Arguments) : String → Option Arguments
  | "--ast" => some { a with ast := true }
  | "--tokens" => some { a with tokens := true }
  | "--interactive" | "-i" => some { a with interactive := true }
  | "--color" => some { a with color := some true }
  | "--no-color" => some { a with color := some false }
  | "--verbose" | "-v" => some { a with verbose := true }
  | "--help" | "-h" => some { a with help := true }
  | _ => none

/-- Sets the input. A lone dash is an input, and any other argument with a dash is not. -/
def setInput (a : Arguments) (arg : String) : Except UsageError Arguments :=
  if arg ≠ "-" ∧ arg.toList.head? = some '-' then .error (.unknownOption arg)
  else if a.input.isSome then .error (.unexpected arg)
  else .ok { a with input := some arg }

/-- Sets what an argument without a value asks for. -/
def setPlain (a : Arguments) (arg : String) : Except UsageError Arguments :=
  match a.setFlag? arg with
  | some a => .ok a
  | none => a.setInput arg

/-- Reads arguments from left to right, up to the first error. -/
def readFrom (a : Arguments) : List String → Except UsageError Arguments
  | [] => .ok a
  | arg :: args =>
    match valued? arg with
    | some option =>
      match args with
      | [] => .error (.missingValue arg)
      | value :: args =>
        match a.setValued value option with
        | .ok a => a.readFrom args
        | .error e => .error e
    | none =>
      match a.setPlain arg with
      | .ok a => a.readFrom args
      | .error e => .error e

/-- What a list of arguments asks for. -/
def read (args : List String) : Except UsageError Arguments := empty.readFrom args

end Arguments

end PostfixMath
