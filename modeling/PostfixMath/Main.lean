-- The command line: it looks at the files that a command may touch, runs the command, and
-- carries out what it decided.
import PostfixMath.Command.Run

namespace PostfixMath.Main

/-- What the machine has at a path. -/
def entryAt? (path : Path) : IO (Option FileTree.Entry) := do
  try
    let real ← IO.FS.realPath path.text
    if ← real.isDir then return some .directory
    if ← real.pathExists then return some (.file (← IO.FS.readBinFile real).toList)
    return none
  catch _ => return none

/-- Adds what the machine has on the way to a path. -/
def survey (files : FileTree) (path : Path) : IO FileTree := do
  let mut files := files
  for size in List.range path.length do
    let way := path.take (size + 1)
    if let some entry ← entryAt? way then
      files := files.insert way entry
  return files

/-- The bytes of a stream, chunk by chunk, to its end. -/
partial def readChunks (stream : IO.FS.Stream) : IO (List Chunk) := do
  let bytes ← stream.read 65536
  if bytes.isEmpty then return []
  return .bytes bytes.toList :: (← readChunks stream)

/-- Goes on with a session, chunk by chunk, to the end of its input. -/
partial def converse (look : Session.Look) (s : Session) : IO Unit := do
  let stdout ← IO.getStdout
  let bytes ← (← IO.getStdin).read 65536
  if bytes.isEmpty then
    stdout.putStr (s.finish look)
  else
    let (s, out) := s.feed look (.bytes bytes.toList)
    stdout.putStr out
    stdout.flush
    unless s.closed do converse look s

/-- Writes the file that a job has left at a path. -/
def store (files : FileTree) (path : Path) : IO Unit := do
  if let some (.file content) := files.lookup path then
    IO.FS.writeBinFile path.text ⟨content.toArray⟩

/-- Does a job on the files of the machine. -/
def runJob (i : Command.Invocation) (job : Command.Job) (stderr : String) : IO Nat := do
  let input := i.directory.resolve job.input
  let output := job.output.map i.directory.resolve
  let stdin ← if job.input = "-" then readChunks (← IO.getStdin) else pure []
  let mut files := i.files
  if job.input ≠ "-" then files ← survey files input
  if let some path := output then files ← survey files path
  let outcome := job.run files i.directory stdin stderr
  if outcome.code = 0 then
    if let some path := output then store outcome.files path
  IO.eprint outcome.stderr
  IO.print outcome.stdout
  return outcome.code

/-- Runs a command on the machine. -/
def run (args : List String) : IO Nat := do
  let noColor := (← IO.getEnv "NO_COLOR").getD ""
  let terminal ← (← IO.getStderr).isTty
  let directory := Path.resolve [] (← IO.currentDir).toString
  let files ← survey ⟨[]⟩ (directory ++ [Settings.fileName])
  let i : Command.Invocation := ⟨args, [("NO_COLOR", noColor)], terminal, directory, files⟩
  let plan := Command.plan i
  match plan.task with
  | .stop code =>
    IO.eprint plan.stderr
    IO.print plan.stdout
    return code
  | .session look showTree =>
    IO.eprint plan.stderr
    IO.print (Session.banner ++ look.prompt)
    (← IO.getStdout).flush
    converse look (.begin showTree)
    return 0
  | .convert job => runJob i job plan.stderr

end PostfixMath.Main

/-- The command line program. -/
def main (args : List String) : IO UInt32 := do
  return UInt32.ofNat (← PostfixMath.Main.run args)
