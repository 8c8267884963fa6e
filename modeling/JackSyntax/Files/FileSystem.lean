import JackSyntax.Files.Path
import JackSyntax.Text.Newline
import JackSyntax.Text.Utf8

/-!
# Files

A file system holds files and directories, each under the names that lead to it from the
root, and has a working directory.  A path is followed name by name, and every name but the
last must lead to a directory.  The length of a name is limited, and so is that of a whole
path.  Some files must not be read, and at some places no file may be written.

What reads and writes files only needs to know a few things about each path (`FileView`):
what stands there, the bytes of the file there, and whether one can be opened there to be
written.  Once it is open, writing may still break off (`JackSyntax.Command.Report`).
-/

namespace JackSyntax

/-- What can stand at a path. -/
inductive Entry
  | directory
  | file (content : List UInt8)
deriving DecidableEq

/-- Why a file cannot be opened. -/
inductive FileFault
  | missing
  | isDirectory
  /-- A file stands where a directory is needed. -/
  | notDirectory
  | nameTooLong
  /-- The file must not be read or written. -/
  | denied
  /-- The path holds the null character, which no path can hold. -/
  | nullCharacter
deriving DecidableEq

/-- The fault in words, with its number if it has one. -/
def FileFault.description : FileFault → String
  | .missing => "[Errno 2] No such file or directory"
  | .denied => "[Errno 13] Permission denied"
  | .isDirectory => "[Errno 21] Is a directory"
  | .notDirectory => "[Errno 20] Not a directory"
  | .nameTooLong => "[Errno 36] File name too long"
  | .nullCharacter => "embedded null byte"

/-- A fault and the path where it occurred. -/
structure FileError where
  fault : FileFault
  path : Path
deriving DecidableEq

/-- The error in words.  A path that cannot be passed on is not quoted. -/
def FileError.message (error : FileError) : String :=
  match error.fault with
  | .nullCharacter => error.fault.description
  | fault => fault.description ++ ": " ++ Text.quoted error.path.toText

/-! ## Limits -/

/-- The most bytes that a name can have. -/
def maxNameLength : Nat := 255

/-- The most bytes that the text of a path can have. -/
def maxPathLength : Nat := 4095

/-- What is wrong with the text of a path, whatever stands where. -/
def Path.fault? (path : Path) : Option FileFault :=
  if '\x00' ∈ path.toText.toList then some .nullCharacter
  else if maxPathLength < path.toText.utf8ByteSize then some .nameTooLong
  else none

/-! ## Places -/

/-- Files and directories, each under its place: the names that lead to it from the root. -/
structure FileSystem where
  entries : List (List String × Entry)
  /-- The place where relative paths start. -/
  workingDirectory : List String
  /-- The places of the files that must not be read. -/
  unreadable : List (List String)
  /-- The places where no file may be written. -/
  unwritable : List (List String)

namespace FileSystem

/-- What stands at a place; the root is a directory. -/
def at? (files : FileSystem) (place : List String) : Option Entry :=
  if place = [] then some .directory else files.entries.lookup place

/-- Puts an entry at a place, instead of what stood there. -/
def insert (files : FileSystem) (place : List String) (entry : Entry) : FileSystem :=
  { files with
    entries := files.entries.filter (fun known => known.1 ≠ place) ++ [(place, entry)] }

theorem at?_insert_self (files : FileSystem) {place : List String} (entry : Entry)
    (hplace : place ≠ []) : (files.insert place entry).at? place = some entry := by
  simp only [at?, insert, hplace, if_false, ne_eq, decide_not]
  induction files.entries with
  | nil => simp
  | cons known rest ih =>
      obtain ⟨names, stood⟩ := known
      by_cases hnames : names = place
      · simpa [hnames] using ih
      · have hdiffers : (place == names) = false := by simpa using Ne.symm hnames
        simpa [hnames, List.lookup_cons, hdiffers] using ih

theorem at?_insert_of_ne (files : FileSystem) {place other : List String} (entry : Entry)
    (hother : other ≠ place) : (files.insert place entry).at? other = files.at? other := by
  have hdiffers : (other == place) = false := by simpa using hother
  simp only [at?, insert, ne_eq, decide_not]
  split
  · rfl
  induction files.entries with
  | nil => simp [List.lookup_cons, hdiffers]
  | cons known rest ih =>
      obtain ⟨names, stood⟩ := known
      by_cases hnames : names = place
      · simpa [hnames, List.lookup_cons, hdiffers] using ih
      · cases hsame : other == names with
        | true => simp [hnames, List.lookup_cons, hsame]
        | false => simpa [hnames, List.lookup_cons, hsame] using ih

/-- Where a name leads from a directory; the root is its own parent. -/
def step (place : List String) (name : String) : Except FileFault (List String) :=
  if name = ".." then .ok place.dropLast
  else if maxNameLength < name.utf8ByteSize then .error .nameTooLong
  else .ok (place ++ [name])

/-- Where names lead from a place, if each but the last leads to a directory. -/
def follow (files : FileSystem) : List String → List String → Except FileFault (List String)
  | place, [] => .ok place
  | place, name :: names =>
      match files.at? place with
      | none => .error .missing
      | some (.file _) => .error .notDirectory
      | some .directory =>
          match step place name with
          | .error fault => .error fault
          | .ok next => follow files next names

/-- Where a path starts. -/
def start (files : FileSystem) : PathRoot → List String
  | .relative => files.workingDirectory
  | .slash | .twoSlashes => []

/-- The place that a path leads to. -/
def placeOf (files : FileSystem) (path : Path) : Except FileFault (List String) :=
  match path.fault? with
  | some fault => .error fault
  | none => files.follow (files.start path.root) path.names

@[simp] theorem follow_nil (files : FileSystem) (place : List String) :
    files.follow place [] = .ok place := rfl

/-- Names are followed one by one: the first stretch of them, and the rest from where it
leads. -/
theorem follow_append (files : FileSystem) (place first rest : List String) :
    files.follow place (first ++ rest) =
      match files.follow place first with
      | .error fault => .error fault
      | .ok next => files.follow next rest := by
  induction first generalizing place with
  | nil => rfl
  | cons name names ih =>
      simp only [List.cons_append, follow]
      cases files.at? place with
      | none => rfl
      | some entry =>
          cases entry with
          | file content => rfl
          | directory =>
              cases step place name with
              | error fault => rfl
              | ok next => exact ih next

/-- What stands at a path, and the place. -/
def entryAt (files : FileSystem) (path : Path) : Except FileFault (List String × Entry) :=
  match files.placeOf path with
  | .error fault => .error fault
  | .ok place =>
      match files.at? place with
      | none => .error .missing
      | some entry => .ok (place, entry)

/-- Whether a file stands at a path. -/
def isFile (files : FileSystem) (path : Path) : Except FileFault Bool :=
  match files.entryAt path with
  | .error fault => .error fault
  | .ok (_, .directory) => .ok false
  | .ok (_, .file _) => .ok true

/-- The bytes of the file at a path. -/
def read (files : FileSystem) (path : Path) : Except FileFault (List UInt8) :=
  match files.entryAt path with
  | .error fault => .error fault
  | .ok (_, .directory) => .error .isDirectory
  | .ok (place, .file content) =>
      if place ∈ files.unreadable then .error .denied else .ok content

/-- Why no file can be opened at a path to be written. -/
def openFault? (files : FileSystem) (path : Path) : Option FileFault :=
  match files.placeOf path with
  | .error fault => some fault
  | .ok place =>
      if files.at? place = some .directory then some .isDirectory
      else if place ∈ files.unwritable then some .denied
      else none

/-- Leaves a file with the given bytes where a path leads to. -/
def write (files : FileSystem) (path : Path) (content : List UInt8) : FileSystem :=
  match files.placeOf path with
  | .ok place => files.insert place (.file content)
  | .error _ => files

end FileSystem

/-! ## Views -/

/-- What is known about a path. -/
structure PathStatus where
  /-- Whether a file stands there. -/
  isFile : Except FileFault Bool
  /-- The bytes of the file there. -/
  content : Except FileFault (List UInt8)
  /-- Why no file can be opened there to be written. -/
  openFault? : Option FileFault

/-- What is known about each path. -/
abbrev FileView := Path → PathStatus

/-- What a file system says about each path. -/
def FileSystem.view (files : FileSystem) : FileView := fun path =>
  ⟨files.isFile path, files.read path, files.openFault? path⟩

/-- Why the text of a file cannot be read. -/
inductive ReadError
  | file (error : FileError)
  | encoding (error : Text.Utf8Error)
deriving DecidableEq

/-- The error in words. -/
def ReadError.message : ReadError → String
  | .file error => error.message
  | .encoding error => error.message

/-- The text of a file, decoded and with every line end as a line feed. -/
def FileView.readText (view : FileView) (path : Path) : Except ReadError String :=
  match (view path).content with
  | .error fault => .error (.file ⟨fault, path⟩)
  | .ok content =>
      match Text.decodeUtf8 content with
      | .error error => .error (.encoding error)
      | .ok text => .ok (String.ofList (Text.normalizeNewlines text))

/-- Whether a file stands at a path.  A path that is too long cannot be asked about. -/
def FileView.isFile (view : FileView) (path : Path) : Except FileError Bool :=
  match (view path).isFile with
  | .ok answer => .ok answer
  | .error .nameTooLong => .error ⟨.nameTooLong, path⟩
  | .error _ => .ok false

end JackSyntax
