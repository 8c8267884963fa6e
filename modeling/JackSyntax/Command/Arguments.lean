import JackSyntax.Text.DecimalDigit
import JackSyntax.Text.Quoted

/-!
# Command-line arguments

A command takes one positional argument, the source file, and the option `-h` or
`--help`, which may be shortened to a beginning such as `--he`.  After the separator
`--` every argument is positional.

`Arguments.request` reads the arguments from left to right.  The help option ends the
reading at once.  Otherwise the first positional argument is the source, and all others
and all unknown options are left over: they are refused together, in their order, and
only after a source has been found.
-/

namespace JackSyntax

/-- What a single argument is. -/
inductive Argument
  | positional (text : String)
  | separator
  | help
  /-- The help option with a value, which it does not take. -/
  | helpWithValue (value : String)
  /-- An option that does not exist. -/
  | unknown (text : String)
deriving DecidableEq

/-- Why arguments are refused. -/
inductive UsageError
  | missingSource
  | unrecognized (arguments : List String)
  | ignoredValue (value : String)
deriving DecidableEq

/-- The error in words. -/
def UsageError.message : UsageError → String
  | .missingSource => "the following arguments are required: source"
  | .unrecognized arguments => "unrecognized arguments: " ++ String.intercalate " " arguments
  | .ignoredValue value =>
      "argument -h/--help: ignored explicit argument " ++ Text.quoted value

/-- What the arguments ask for. -/
inductive Request
  | help
  | run (source : String)
  | refuse (error : UsageError)
deriving DecidableEq

namespace Argument

/-- The short help option with the characters written right after it.  Each letter `h`
repeats the option; from the first other character on they are a value. -/
def shortHelp : List Char → Argument
  | [] => help
  | 'h' :: more => shortHelp more
  | value => helpWithValue (String.ofList value)

/-- A text without the line feed at its end, if it has one. -/
def dropFinalNewline (text : List Char) : List Char :=
  if text.getLast? = some '\n' then text.dropLast else text

/-- Whether a text is a dash and a number: decimal digits, or a point between them or
before them.  A line feed may end it. -/
def isNegativeNumber (text : List Char) : Bool :=
  match dropFinalNewline text with
  | '-' :: number =>
      match number.dropWhile Text.isDecimalDigit with
      | [] => !number.isEmpty
      | '.' :: decimals => !decimals.isEmpty && decimals.all Text.isDecimalDigit
      | _ => false
  | _ => false

/-- An argument that is no form of the help option: an unknown option if it begins with
a dash, unless it is a negative number or holds a space. -/
def other (text : List Char) : Argument :=
  if isNegativeNumber text || ' ' ∈ text then positional (String.ofList text)
  else unknown (String.ofList text)

/-- An argument that begins with two dashes: the help option if its name is a beginning
of `--help`. -/
def long (text : List Char) : Argument :=
  let name := text.takeWhile (· ≠ '=')
  if name.isPrefixOf "--help".toList then
    match text.dropWhile (· ≠ '=') with
    | [] => help
    | _ :: value => helpWithValue (String.ofList value)
  else other text

/-- What an argument is where no separator came before. -/
def ofText (text : String) : Argument :=
  match text.toList with
  | ['-'] => positional text
  | ['-', '-'] => separator
  | '-' :: '-' :: rest => long ('-' :: '-' :: rest)
  | ['-', 'h', '='] => helpWithValue ""
  | '-' :: 'h' :: '=' :: value => shortHelp value
  | '-' :: 'h' :: value => shortHelp value
  | '-' :: rest => other ('-' :: rest)
  | _ => positional text

end Argument

namespace Arguments

/-- What each argument is. -/
def classify : List String → List Argument
  | [] => []
  | text :: rest =>
      match Argument.ofText text with
      | .separator => .separator :: rest.map .positional
      | argument => argument :: classify rest

/-- What the arguments ask for once none is left: a source and the arguments left over
(last one first). -/
def conclude (source? : Option String) (leftOver : List String) : Request :=
  match source?, leftOver with
  | none, _ => .refuse .missingSource
  | some source, [] => .run source
  | some _, leftOver => .refuse (.unrecognized leftOver.reverse)

/-- Reads arguments after the source, if it was found, and the arguments left over.  A
separator next to the source belongs to it. -/
def requestFrom (source? : Option String) (leftOver : List String) : List Argument → Request
  | [] => conclude source? leftOver
  | .help :: _ => .help
  | .helpWithValue value :: _ => .refuse (.ignoredValue value)
  | .unknown text :: rest => requestFrom source? (text :: leftOver) rest
  | .positional text :: .separator :: rest =>
      match source? with
      | none => requestFrom (some text) leftOver rest
      | some source => requestFrom (some source) ("--" :: text :: leftOver) rest
  | .positional text :: rest =>
      match source? with
      | none => requestFrom (some text) leftOver rest
      | some source => requestFrom (some source) (text :: leftOver) rest
  | .separator :: rest =>
      match source? with
      | none => requestFrom none leftOver rest
      | some source => requestFrom (some source) ("--" :: leftOver) rest

/-- What the arguments ask for. -/
def request (arguments : List String) : Request :=
  requestFrom none [] (classify arguments)

end Arguments

end JackSyntax
