import JackSyntax.Analysis
import JackSyntax.Command.Arguments
import JackSyntax.Command.Report
import JackSyntax.Document

/-!
# The commands

There are two commands: one writes the parse tree of a source file as a document beside
it, the other its tokens.  `Command.run` says what a command sets out to do, given its
arguments, what is known about each path, and the room for calls while a source is read:
what it prints, how it ends, and which document it writes, if any.

The document is complete before its file is opened, so a source without a document, or a
file that cannot be opened, leaves all files as they are.  Three failures have no exit status
of their own: a source whose path is too long, a run of digits of excessive length, and a
file that cannot be opened for the document.
-/

namespace JackSyntax

/-- The commands, named for what they write. -/
inductive Command
  | analyze
  | tokenize
deriving DecidableEq

namespace Command

/-! ## Usage -/

/-- The name under which a command is called. -/
def program : Command → String
  | analyze => "jack-analyze"
  | tokenize => "jack-tokenize"

/-- What a command does, in one line. -/
def description : Command → String
  | analyze => "Parse a .jack file and write its parse tree as XML"
  | tokenize => "Tokenize a .jack file and write the token list as XML"

/-- The usage line. -/
def usage (command : Command) : String :=
  "usage: " ++ command.program ++ " [-h] source\n"

/-- The help text. -/
def help (command : Command) : String :=
  command.usage ++ "\n" ++ command.description ++ "\n\n" ++
    "positional arguments:\n  source      Jack source file (.jack)\n\n" ++
    "options:\n  -h, --help  show this help message and exit\n"

/-- The answer to arguments that are refused. -/
def refuse (command : Command) (error : UsageError) : Report :=
  ⟨.exit 2, "", command.usage ++ command.program ++ ": error: " ++ error.message ++ "\n", none⟩

/-! ## Running -/

/-- The document of a source text. -/
def render (room : Nat) : Command → String → Except AnalysisError String
  | analyze, source =>
      (JackSyntax.analyze room PrecedenceTable.flat.entries source).map Document.ofTree
  | tokenize, source =>
      match JackSyntax.tokenize source with
      | .error error => .error (.lexical error)
      | .ok tokens => .ok (Document.ofTokens tokens)

/-- The file for the document of a source file. -/
def output : Command → Path → Except Path.EmptyName Path
  | analyze, source => source.treeOutput
  | tokenize, source => source.tokenOutput

/-- The answer to a source that is no source file. -/
def refuseSource (source : Path) : Report :=
  .say 1 ("Error: input file must be an existing " ++ Path.sourceSuffix ++ " file: " ++
    source.toText ++ "\n")

/-- The answer to a source file without a document. -/
def reportError (source : Path) (message : String) : Report :=
  .say 1 ("Error: " ++ source.toText ++ ": " ++ message ++ "\n")

/-- Writes a document, if the file for it can be opened. -/
def writeDocument (view : FileView) (path : Path) (document : String) : Report :=
  match (view path).openFault? with
  | some fault => .fail (.file ⟨fault, path⟩)
  | none => .wrote path document

/-- What a command does with the text of a source file. -/
def process (command : Command) (room : Nat) (view : FileView) (source : Path)
    (text : String) : Report :=
  match command.render room text with
  | .error (.lexical ⟨.tooManyDigits count, line, column⟩) =>
      .fail (.lexical ⟨.tooManyDigits count, line, column⟩)
  | .error error => reportError source error.message
  | .ok document =>
      match command.output source with
      | .error error => .fail (.emptyName error)
      | .ok path => writeDocument view path document

/-- What a command does with a path. -/
def runOn (command : Command) (room : Nat) (view : FileView) (source : Path) : Report :=
  if source.suffix = Path.sourceSuffix then
    match view.isFile source with
    | .error error => .fail (.file error)
    | .ok false => refuseSource source
    | .ok true =>
        match view.readText source with
        | .error error => reportError source error.message
        | .ok text => command.process room view source text
  else refuseSource source

/-- What a command does. -/
def run (command : Command) (room : Nat) (view : FileView) (arguments : List String) :
    Report :=
  match Arguments.request arguments with
  | .help => .say 0 command.help
  | .refuse error => command.refuse error
  | .run source => command.runOn room view (.ofText source)

/-- What becomes of a command that is run on some files, and the files after it. -/
def effect (command : Command) (room : Nat) (files : FileSystem) (arguments : List String)
    (circumstances : Circumstances) : Conclusion × FileSystem :=
  (command.run room files.view arguments).carryOut circumstances files

end Command

end JackSyntax
