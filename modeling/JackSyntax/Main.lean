import JackSyntax.Command.Run

/-!
# The command line

The outer layer: it looks up the paths that a command asks about, and carries out the
command's report, in the order of `Report.carryOut`.  What a command does is decided in
`JackSyntax.Command.Run`.
-/

namespace JackSyntax

/-- The fault that an error of the machine reports. -/
def faultOf : IO.Error → FileFault
  | .inappropriateType .. => .notDirectory
  | .invalidArgument .. => .nameTooLong
  | _ => .missing

/-- Whether a directory stands at a path of the machine. -/
def isDirectory (path : Path) : IO Bool := do
  try
    (← IO.FS.realPath path.toText).isDir
  catch _ => return false

/-- What is known about a path where no file can be opened to be read. -/
def PathStatus.unopened (fault : FileFault) : PathStatus :=
  ⟨.error fault, .error fault, none⟩

/-- What is known about a path of the machine.  Whether a file can be written is found out
by writing it, unless a directory stands in its place. -/
def lookUp (path : Path) : IO PathStatus := do
  if let some fault := path.fault? then return ⟨.error fault, .error fault, some fault⟩
  if ← isDirectory path then return ⟨.ok false, .error .isDirectory, some .isDirectory⟩
  try
    let content ← IO.FS.readBinFile path.toText
    return ⟨.ok true, .ok content.toList, none⟩
  catch
    | .permissionDenied .. => return ⟨.ok true, .error .denied, none⟩
    | error => return .unopened (faultOf error)

/-- The paths that a command with the given arguments asks about. -/
def pathsAsked (command : Command) (arguments : List String) : List Path :=
  match Arguments.request arguments with
  | .run source =>
      let path := Path.ofText source
      match command.output path with
      | .ok output => [path, output]
      | .error _ => [path]
  | _ => []

/-- What is known about the given paths; nothing stands at any other. -/
def lookUpAll : List Path → IO FileView
  | [] => return fun _ => .unopened .missing
  | path :: paths => do
      let status ← lookUp path
      let others ← lookUpAll paths
      return fun asked => if asked = path then status else others asked

/-- Runs a command and gives its exit status. -/
def runCommand (command : Command) (arguments : List String) : IO UInt32 := do
  let view ← lookUpAll (pathsAsked command arguments)
  let report := command.run usualRoom view arguments
  if let some (path, text) := report.document? then
    IO.FS.writeFile path.toText text
  IO.print report.stdout
  IO.eprint report.stderr
  match report.ending with
  | .exit status => return status.toUInt32
  | .failed failure =>
      IO.eprintln failure.message
      return 1

/-- Writes the tokens of the source file that the arguments name. -/
def tokenizeMain (arguments : List String) : IO UInt32 :=
  runCommand .tokenize arguments

end JackSyntax

/-- Writes the parse tree of the source file that the arguments name. -/
def main (arguments : List String) : IO UInt32 :=
  JackSyntax.runCommand .analyze arguments
