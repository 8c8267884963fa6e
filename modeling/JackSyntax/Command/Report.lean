import JackSyntax.Files.FileSystem
import JackSyntax.Source.Scan

/-!
# Reports

A report says what a command sets out to do: which document it writes, if any, what it
prints after that, and how it ends.  `Report.carryOut` says what becomes of it.

Opening a file to write it empties the file, and puts an empty one where there was none.
Whatever keeps the rest of the document from being written after that, such as a device
without space, leaves a file with the first bytes of it or with none.  A message may fail to
be printed as well, and the one that names the document comes after the document.
-/

namespace JackSyntax

/-- Why a command ends without an exit status. -/
inductive CommandFailure
  | lexical (error : LexicalError)
  | emptyName (error : Path.EmptyName)
  | file (error : FileError)
deriving DecidableEq

/-- The failure in words. -/
def CommandFailure.message : CommandFailure → String
  | .lexical error => error.message
  | .emptyName error => error.message
  | .file error => error.message

/-- How a command ends. -/
inductive Ending
  | exit (status : Nat)
  | failed (failure : CommandFailure)
deriving DecidableEq

/-- What a command sets out to do. -/
structure Report where
  ending : Ending
  stdout : String
  stderr : String
  /-- The document it writes before it prints anything, and where. -/
  document? : Option (Path × String)
deriving DecidableEq

/-- What a command does not know before: what happens while its report is carried out. -/
structure Circumstances where
  /-- How many bytes of the document are in its file when writing breaks off, if it does. -/
  brokenOff? : Option Nat
  /-- Whether a message can be printed. -/
  prints : Bool
deriving DecidableEq

/-- Nothing goes wrong. -/
def Circumstances.calm : Circumstances :=
  ⟨none, true⟩

/-- What becomes of a report. -/
inductive Conclusion
  /-- All of it is done, and the command ends as the report says. -/
  | ended (ending : Ending)
  /-- Writing the document breaks off, and the command with it. -/
  | brokenOff
  /-- A message cannot be printed, and the command breaks off there. -/
  | unprinted
deriving DecidableEq

namespace Report

/-- Nothing but a message on the standard output and an exit status. -/
def say (status : Nat) (stdout : String) : Report :=
  ⟨.exit status, stdout, "", none⟩

/-- Nothing but a failure. -/
def fail (failure : CommandFailure) : Report :=
  ⟨.failed failure, "", "", none⟩

/-- A document, and a message that names its file. -/
def wrote (path : Path) (document : String) : Report :=
  ⟨.exit 0, "Wrote " ++ path.toText ++ "\n", "", some (path, document)⟩

/-- How a command ends when it has come to its message, which may be none. -/
def conclude (report : Report) (circumstances : Circumstances) : Conclusion :=
  if report.stdout = "" ∨ circumstances.prints = true then .ended report.ending else .unprinted

/-- What becomes of a report, and the files after it. -/
def carryOut (report : Report) (circumstances : Circumstances) (files : FileSystem) :
    Conclusion × FileSystem :=
  match report.document? with
  | none => (report.conclude circumstances, files)
  | some (path, document) =>
      match circumstances.brokenOff? with
      | none => (report.conclude circumstances, files.write path document.toUTF8.toList)
      | some count => (.brokenOff, files.write path (document.toUTF8.toList.take count))

theorem carryOut_fail (failure : CommandFailure) (circumstances : Circumstances)
    (files : FileSystem) :
    (fail failure).carryOut circumstances files = (.ended (.failed failure), files) := rfl

theorem carryOut_wrote (path : Path) (document : String) (circumstances : Circumstances)
    (files : FileSystem) :
    (wrote path document).carryOut circumstances files =
      match circumstances.brokenOff? with
      | none =>
          (if circumstances.prints = true then .ended (.exit 0) else .unprinted,
            files.write path document.toUTF8.toList)
      | some count => (.brokenOff, files.write path (document.toUTF8.toList.take count)) := by
  cases hbroken : circumstances.brokenOff? with
  | none => simp [carryOut, conclude, hbroken, wrote]
  | some count => simp [carryOut, hbroken, wrote]

theorem carryOut_say {stdout : String} (hstdout : stdout ≠ "") (status : Nat)
    (circumstances : Circumstances) (files : FileSystem) :
    (say status stdout).carryOut circumstances files =
      (if circumstances.prints = true then .ended (.exit status) else .unprinted, files) := by
  simp [carryOut, conclude, say, hstdout]

end Report

end JackSyntax
