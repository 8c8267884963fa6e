import JackSyntax.Command.Run
import JackSyntax.Proofs.Files.Outputs
import JackSyntax.Proofs.Files.Views
import JackSyntax.Proofs.Source.Integers
import Mathlib

/-!
# What a command leaves behind

What a command sets out to do with a source file is one of three things.  It writes the
complete document (`Command.Writes`); it reports why there is none (`Command.Reports`); or it
breaks off without an exit status (`Command.Breaks`).  None of these is described by the way
the command works: only by the text of the source file, the grammar, and the places that the
paths lead to.

One of the three always holds (`Command.runOn_cases`), and each of them settles what the
command does, so no two hold together.  Unless the command writes a document, all files stay
as they are.  If it does, the file beside the source is the only one that changes, but what
is in it depends on the circumstances: writing may break off, and then the file holds the
first bytes of the document only, and the command may fail to print its message, and then
the document is there although the command does not exit with 0.  Only where nothing of this
happens does a command that fails leave nothing behind.  All or nothing, whatever happens,
would be too much to ask (`Command.not_allOrNothing`).
-/

namespace JackSyntax

namespace Command

variable {command : Command} {room : Nat} {files : FileSystem} {source out : Path}
  {text document : String}

/-! ## The document of a text -/

/-- The document of a text: the tokens of it, or their parse tree if all operators have one
level and there is room for the calls. -/
inductive Documents (room : Nat) : Command → String → String → Prop
  | tree {text : String} {tokens : List Token} {tree : Tree}
      (htokens : JackSyntax.tokenize text = .ok tokens)
      (htree : parseTokens .flat room tokens = .ok tree) :
      Documents room analyze text (Document.ofTree tree)
  | tokens {text : String} {tokens : List Token} (htokens : JackSyntax.tokenize text = .ok tokens) :
      Documents room tokenize text (Document.ofTokens tokens)

/-- Why a text has no document. -/
inductive Rejects (room : Nat) : Command → String → AnalysisError → Prop
  | lexical {command : Command} {text : String} {error : LexicalError}
      (htokens : JackSyntax.tokenize text = .error error) :
      Rejects room command text (.lexical error)
  | grammatical {text : String} {tokens : List Token} {error : SyntaxError}
      (htokens : JackSyntax.tokenize text = .ok tokens)
      (htree : parseTokens .flat room tokens = .error error) :
      Rejects room analyze text (.grammatical error)

theorem analyze_flat (room : Nat) (text : String) :
    JackSyntax.analyze room PrecedenceTable.flat.entries text =
      match JackSyntax.tokenize text with
      | .error error => .error (.lexical error)
      | .ok tokens => (parseTokens .flat room tokens).mapError .grammatical := by
  have htable : PrecedenceTable.ofEntries PrecedenceTable.flat.entries = .ok .flat := rfl
  unfold JackSyntax.analyze prepare
  rw [htable]
  cases JackSyntax.tokenize text <;> rfl

theorem Documents.render_eq (hdocument : command.Documents room text document) :
    command.render room text = .ok document := by
  cases hdocument with
  | tree htokens htree =>
      simp only [render, analyze_flat, htokens, htree]
      rfl
  | tokens htokens => simp only [render, htokens]

theorem Rejects.render_eq {error : AnalysisError} (hrejects : command.Rejects room text error) :
    command.render room text = .error error := by
  cases hrejects with
  | lexical htokens =>
      cases command with
      | analyze =>
          simp only [render, analyze_flat, htokens]
          rfl
      | tokenize => simp only [render, htokens]
  | grammatical htokens htree =>
      simp only [render, analyze_flat, htokens, htree]
      rfl

theorem documents_or_rejects (command : Command) (room : Nat) (text : String) :
    (∃ document, command.Documents room text document) ∨
      ∃ error, command.Rejects room text error := by
  cases htokens : JackSyntax.tokenize text with
  | error error => exact Or.inr ⟨_, .lexical htokens⟩
  | ok tokens =>
      cases command with
      | tokenize => exact Or.inl ⟨_, .tokens htokens⟩
      | analyze =>
          cases htree : parseTokens .flat room tokens with
          | error error => exact Or.inr ⟨_, .grammatical htokens htree⟩
          | ok tree => exact Or.inl ⟨_, .tree htokens htree⟩

/-! ## The file of a document -/

/-- What the name of a document has after the stem of its source. -/
def nameEnd : Command → String
  | analyze => ".xml"
  | tokenize => "T.xml"

theorem output_eq (command : Command) (source : Path) :
    command.output source = source.withName (source.stem ++ command.nameEnd) := by
  cases command <;> rfl

theorem exists_output (command : Command) (hsuffix : source.suffix = Path.sourceSuffix) :
    ∃ out, command.output source = .ok out := by
  rw [output_eq, Path.withName_eq_beside (Path.name_ne_empty_of_source hsuffix)]
  exact ⟨_, rfl⟩

theorem ne_dots_of_stem {stem ending : String} (hlength : 2 < ending.length) :
    stem ++ ending ≠ ".." := by
  intro hdots
  have hsame := congrArg String.length hdots
  have htwo : "..".length = 2 := rfl
  rw [String.length_append] at hsame
  omega

/-- The document of a source file stands beside it, under another name. -/
theorem exists_beside (command : Command) {place : List String}
    (hsuffix : source.suffix = Path.sourceSuffix) (hplace : files.placeOf source = .ok place)
    (hout : command.output source = .ok out) :
    ∃ directory, place = directory ++ [source.name] ∧
      files.placeOf out = .ok (directory ++ [source.stem ++ command.nameEnd]) := by
  rw [output_eq] at hout
  have hname := Path.name_of_source hsuffix
  have hlong : 2 < command.nameEnd.length := by cases command <;> decide
  have hsize : command.nameEnd.utf8ByteSize ≤ Path.sourceSuffix.utf8ByteSize := by
    cases command <;> decide
  have hfree : '\x00' ∉ command.nameEnd.toList := by cases command <;> decide
  refine FileSystem.placeOf_withName hplace hout ?_ (ne_dots_of_stem hlong) ?_ ?_
  · rw [hname]
    exact ne_dots_of_stem (by decide)
  · rw [hname, String.toList_append, String.toList_append, List.mem_append, List.mem_append]
    rintro (hstem | hend)
    · exact Or.inl hstem
    · exact absurd hend hfree
  · rw [hname, String.utf8ByteSize_append, String.utf8ByteSize_append]
    omega

/-! ## What a command does with a source -/

/-- A command comes to write its document: the source is a readable file with a document, and
the file for that can be opened. -/
structure Writes (command : Command) (room : Nat) (files : FileSystem) (source out : Path)
    (document : String) : Prop where
  suffix : source.suffix = Path.sourceSuffix
  document : ∃ text, files.HoldsText source text ∧ command.Documents room text document
  output : command.output source = .ok out
  writable : files.Writable out

/-- A command reports with a message that there is no document. -/
inductive Reports (command : Command) (room : Nat) (files : FileSystem) (source : Path) :
    String → Prop
  | suffix (hsuffix : source.suffix ≠ Path.sourceSuffix) :
      Reports command room files source ("input file must be an existing " ++ Path.sourceSuffix ++
        " file: " ++ source.toText)
  | noFile (hfile : ¬ files.HoldsFile source)
      (hplace : files.placeOf source ≠ .error .nameTooLong) :
      Reports command room files source ("input file must be an existing " ++ Path.sourceSuffix ++
        " file: " ++ source.toText)
  | unreadable {error : ReadError} (hsuffix : source.suffix = Path.sourceSuffix)
      (hfile : files.HoldsFile source) (hread : files.view.readText source = .error error) :
      Reports command room files source (source.toText ++ ": " ++ error.message)
  | rejected {text : String} {error : AnalysisError} (hsuffix : source.suffix = Path.sourceSuffix)
      (htext : files.HoldsText source text) (hrejects : command.Rejects room text error)
      (hlimit : ∀ lexical count, error = .lexical lexical → lexical.fault ≠ .tooManyDigits count) :
      Reports command room files source (source.toText ++ ": " ++ error.message)

/-- A command breaks off without an exit status. -/
inductive Breaks (command : Command) (room : Nat) (files : FileSystem) (source : Path) :
    CommandFailure → Prop
  | longPath (hsuffix : source.suffix = Path.sourceSuffix)
      (hplace : files.placeOf source = .error .nameTooLong) :
      Breaks command room files source (.file ⟨.nameTooLong, source⟩)
  | manyDigits {text : String} {error : LexicalError} {count : Nat}
      (hsuffix : source.suffix = Path.sourceSuffix) (htext : files.HoldsText source text)
      (htokens : JackSyntax.tokenize text = .error error)
      (hfault : error.fault = .tooManyDigits count) :
      Breaks command room files source (.lexical error)
  | unwritable {text document : String} {out : Path} {fault : FileFault}
      (hsuffix : source.suffix = Path.sourceSuffix) (htext : files.HoldsText source text)
      (hdocument : command.Documents room text document) (hout : command.output source = .ok out)
      (hopen : (files.view out).openFault? = some fault) :
      Breaks command room files source (.file ⟨fault, out⟩)

theorem runOn_of_text (hsuffix : source.suffix = Path.sourceSuffix)
    (htext : files.HoldsText source text) :
    command.runOn room files.view source = command.process room files.view source text := by
  rw [runOn, if_pos hsuffix, FileSystem.isFile_eq_true_iff.mpr htext.holdsFile]
  simp only [FileSystem.readText_eq_ok_iff.mpr htext]

theorem Writes.runOn_eq (hwrites : command.Writes room files source out document) :
    command.runOn room files.view source = .wrote out document := by
  obtain ⟨text, htext, hdocument⟩ := hwrites.document
  rw [runOn_of_text hwrites.suffix htext, process, hdocument.render_eq]
  simp only [hwrites.output, writeDocument,
    FileSystem.openFault?_eq_none_iff.mpr hwrites.writable]

theorem refuseSource_eq (source : Path) :
    refuseSource source = .say 1 ("Error: " ++ ("input file must be an existing " ++
      Path.sourceSuffix ++ " file: " ++ source.toText) ++ "\n") := by
  have hbegin : "Error: input file must be an existing " =
      "Error: " ++ "input file must be an existing " := rfl
  rw [refuseSource, hbegin]
  simp only [String.append_assoc]

theorem reportError_eq (source : Path) (message : String) :
    reportError source message =
      .say 1 ("Error: " ++ (source.toText ++ ": " ++ message) ++ "\n") := by
  rw [reportError]
  simp only [String.append_assoc]

theorem Rejects.process_eq {error : AnalysisError} (hrejects : command.Rejects room text error)
    (hlimit : ∀ lexical count, error = .lexical lexical → lexical.fault ≠ .tooManyDigits count) :
    command.process room files.view source text = reportError source error.message := by
  rw [process, hrejects.render_eq]
  cases hrejects with
  | grammatical _ _ => rfl
  | @lexical _ _ error _ =>
      obtain ⟨fault, line, column⟩ := error
      cases fault with
      | tooManyDigits count => exact absurd rfl (hlimit _ count rfl)
      | unexpectedCharacter c => rfl
      | unterminatedString => rfl
      | unterminatedComment => rfl
      | integerTooLarge digits => rfl

theorem Reports.runOn_eq {message : String} (hreports : command.Reports room files source message) :
    command.runOn room files.view source = .say 1 ("Error: " ++ message ++ "\n") := by
  cases hreports with
  | suffix hsuffix => rw [runOn, if_neg hsuffix, refuseSource_eq]
  | noFile hfile hplace =>
      rw [← refuseSource_eq, runOn]
      split
      · cases hanswer : files.view.isFile source with
        | error error => exact absurd (FileSystem.isFile_eq_error_iff.mp hanswer).1 hplace
        | ok answer =>
            cases answer with
            | true => exact absurd (FileSystem.isFile_eq_true_iff.mp hanswer) hfile
            | false => rfl
      · rfl
  | unreadable hsuffix hfile hread =>
      rw [runOn, if_pos hsuffix, FileSystem.isFile_eq_true_iff.mpr hfile, ← reportError_eq]
      simp only [hread]
  | rejected hsuffix htext hrejects hlimit =>
      rw [runOn_of_text hsuffix htext, hrejects.process_eq hlimit, reportError_eq]

theorem Breaks.runOn_eq {failure : CommandFailure}
    (hbreaks : command.Breaks room files source failure) :
    command.runOn room files.view source = .fail failure := by
  cases hbreaks with
  | longPath hsuffix hplace =>
      rw [runOn, if_pos hsuffix, FileSystem.isFile_eq_error_iff.mpr ⟨hplace, rfl⟩]
  | @manyDigits text error count hsuffix htext htokens hfault =>
      rw [runOn_of_text hsuffix htext, process, (Rejects.lexical htokens).render_eq]
      obtain ⟨fault, line, column⟩ := error
      cases hfault
      rfl
  | unwritable hsuffix htext hdocument hout hopen =>
      rw [runOn_of_text hsuffix htext, process, hdocument.render_eq]
      simp only [hout, writeDocument, hopen]

/-- With a source file that can be read, all depends on its text and on the place of the
document. -/
theorem cases_of_text (hsuffix : source.suffix = Path.sourceSuffix)
    (htext : files.HoldsText source text) :
    (∃ out document, command.Writes room files source out document) ∨
      (∃ message, command.Reports room files source message) ∨
      ∃ failure, command.Breaks room files source failure := by
  rcases command.documents_or_rejects room text with ⟨document, hdocument⟩ | ⟨error, hrejects⟩
  · obtain ⟨out, hout⟩ := command.exists_output hsuffix
    cases hopen : (files.view out).openFault? with
    | none =>
        have hwritable := FileSystem.openFault?_eq_none_iff.mp hopen
        exact Or.inl ⟨out, document, hsuffix, ⟨text, htext, hdocument⟩, hout, hwritable⟩
    | some fault => exact Or.inr (Or.inr ⟨_, .unwritable hsuffix htext hdocument hout hopen⟩)
  · by_cases hlimit : ∃ lexical count, error = .lexical lexical ∧
        lexical.fault = .tooManyDigits count
    · obtain ⟨lexical, count, rfl, hfault⟩ := hlimit
      cases hrejects with
      | lexical htokens => exact Or.inr (Or.inr ⟨_, .manyDigits hsuffix htext htokens hfault⟩)
    · refine Or.inr (Or.inl ⟨_, .rejected hsuffix htext hrejects ?_⟩)
      intro lexical count herror hfault
      exact hlimit ⟨lexical, count, herror, hfault⟩

theorem runOn_cases (command : Command) (room : Nat) (files : FileSystem) (source : Path) :
    (∃ out document, command.Writes room files source out document) ∨
      (∃ message, command.Reports room files source message) ∨
      ∃ failure, command.Breaks room files source failure := by
  by_cases hsuffix : source.suffix = Path.sourceSuffix
  · by_cases hfile : files.HoldsFile source
    · cases hread : files.view.readText source with
      | error error => exact Or.inr (Or.inl ⟨_, .unreadable hsuffix hfile hread⟩)
      | ok text => exact cases_of_text hsuffix (FileSystem.readText_eq_ok_iff.mp hread)
    · by_cases hplace : files.placeOf source = .error .nameTooLong
      · exact Or.inr (Or.inr ⟨_, .longPath hsuffix hplace⟩)
      · exact Or.inr (Or.inl ⟨_, .noFile hfile hplace⟩)
  · exact Or.inr (Or.inl ⟨_, .suffix hsuffix⟩)

/-! ### No two of the three hold together -/

theorem Writes.not_reports (hwrites : command.Writes room files source out document) :
    ¬ ∃ message, command.Reports room files source message := by
  rintro ⟨message, hreports⟩
  have hsame := hwrites.runOn_eq.symm.trans hreports.runOn_eq
  simp [Report.wrote, Report.say] at hsame

theorem Writes.not_breaks (hwrites : command.Writes room files source out document)
    (failure : CommandFailure) : ¬ command.Breaks room files source failure := by
  intro hbreaks
  have hsame := hwrites.runOn_eq.symm.trans hbreaks.runOn_eq
  simp [Report.wrote, Report.fail] at hsame

theorem Reports.not_breaks {message : String}
    (hreports : command.Reports room files source message) (failure : CommandFailure) :
    ¬ command.Breaks room files source failure := by
  intro hbreaks
  have hsame := hreports.runOn_eq.symm.trans hbreaks.runOn_eq
  simp [Report.say, Report.fail] at hsame

theorem Breaks.unique {failure other : CommandFailure}
    (hbreaks : command.Breaks room files source failure)
    (hother : command.Breaks room files source other) : failure = other := by
  have hsame := hbreaks.runOn_eq.symm.trans hother.runOn_eq
  simpa [Report.fail] using hsame

/-! ## What becomes of a command -/

section Effect

variable {arguments : List String} {path : String} {circumstances : Circumstances}

theorem effect_of_request (hrequest : Arguments.request arguments = .run path) :
    command.effect room files arguments circumstances =
      (command.runOn room files.view (.ofText path)).carryOut circumstances files := by
  rw [effect, run, hrequest]

theorem Writes.effect_eq (hrequest : Arguments.request arguments = .run path)
    (hwrites : command.Writes room files (.ofText path) out document) :
    command.effect room files arguments circumstances =
      match circumstances.brokenOff? with
      | none =>
          (if circumstances.prints = true then .ended (.exit 0) else .unprinted,
            files.write out document.toUTF8.toList)
      | some count => (.brokenOff, files.write out (document.toUTF8.toList.take count)) := by
  rw [effect_of_request hrequest, hwrites.runOn_eq]
  exact Report.carryOut_wrote out document circumstances files

theorem Reports.effect_eq {message : String} (hrequest : Arguments.request arguments = .run path)
    (hreports : command.Reports room files (.ofText path) message) :
    command.effect room files arguments circumstances =
      (if circumstances.prints = true then .ended (.exit 1) else .unprinted, files) := by
  rw [effect_of_request hrequest, hreports.runOn_eq, Report.carryOut_say (by simp)]

theorem Breaks.effect_eq {failure : CommandFailure}
    (hrequest : Arguments.request arguments = .run path)
    (hbreaks : command.Breaks room files (.ofText path) failure) :
    command.effect room files arguments circumstances = (.ended (.failed failure), files) := by
  rw [effect_of_request hrequest, hbreaks.runOn_eq, Report.carryOut_fail]

/-- How a command concludes, in terms of what it sets out to do and of the circumstances. -/
theorem conclusion_iff (hrequest : Arguments.request arguments = .run path) :
    ((command.effect room files arguments circumstances).1 = .ended (.exit 0) ↔
        (∃ out document, command.Writes room files (.ofText path) out document) ∧
          circumstances = .calm) ∧
      ((command.effect room files arguments circumstances).1 = .ended (.exit 1) ↔
        (∃ message, command.Reports room files (.ofText path) message) ∧
          circumstances.prints = true) ∧
      (∀ failure, (command.effect room files arguments circumstances).1 =
          .ended (.failed failure) ↔ command.Breaks room files (.ofText path) failure) ∧
      ((command.effect room files arguments circumstances).1 = .brokenOff ↔
        (∃ out document, command.Writes room files (.ofText path) out document) ∧
          circumstances.brokenOff? ≠ none) ∧
      ((command.effect room files arguments circumstances).1 = .unprinted ↔
        ((∃ out document, command.Writes room files (.ofText path) out document) ∧
            circumstances.brokenOff? = none ∨
          ∃ message, command.Reports room files (.ofText path) message) ∧
          circumstances.prints = false) := by
  obtain ⟨brokenOff?, prints⟩ := circumstances
  rcases command.runOn_cases room files (.ofText path) with
    ⟨out, document, hcase⟩ | ⟨message, hcase⟩ | ⟨failure, hcase⟩
  · have hwrites : ∃ out document, command.Writes room files (.ofText path) out document :=
      ⟨out, document, hcase⟩
    simp only [hcase.effect_eq hrequest, hwrites, hcase.not_reports, hcase.not_breaks]
    cases brokenOff? <;> cases prints <;> simp [Circumstances.calm]
  · have hreports : ∃ message, command.Reports room files (.ofText path) message :=
      ⟨message, hcase⟩
    have hwrites : ¬ ∃ out document, command.Writes room files (.ofText path) out document :=
      fun ⟨_, _, hwrites⟩ => hwrites.not_reports hreports
    simp only [hcase.effect_eq hrequest, hwrites, hreports, hcase.not_breaks]
    cases prints <;> simp
  · have hreports : ¬ ∃ message, command.Reports room files (.ofText path) message :=
      fun ⟨_, hreports⟩ => hreports.not_breaks failure hcase
    have hwrites : ¬ ∃ out document, command.Writes room files (.ofText path) out document :=
      fun ⟨_, _, hwrites⟩ => hwrites.not_breaks failure hcase
    have hbreaks : ∀ other, command.Breaks room files (.ofText path) other ↔ failure = other :=
      fun other => ⟨hcase.unique, fun hsame => hsame ▸ hcase⟩
    simp only [hcase.effect_eq hrequest, hwrites, hreports, hbreaks]
    simp

/-- Unless a command writes its document, all files stay as they are. -/
theorem effect_files_of_not_writes
    (hnever : ∀ path out document, Arguments.request arguments = .run path →
      ¬ command.Writes room files (.ofText path) out document) :
    (command.effect room files arguments circumstances).2 = files := by
  cases hrequest : Arguments.request arguments with
  | help => rw [effect, run, hrequest]; rfl
  | refuse error => rw [effect, run, hrequest]; rfl
  | run path =>
      rcases command.runOn_cases room files (.ofText path) with
        ⟨out, document, hcase⟩ | ⟨message, hcase⟩ | ⟨failure, hcase⟩
      · exact absurd hcase (hnever path out document hrequest)
      · rw [hcase.effect_eq hrequest]
      · rw [hcase.effect_eq hrequest]

end Effect

/-! ## The main result -/

/-- What becomes of a command with its arguments, and of the files, under some
circumstances. -/
structure LeavesBehind (command : Command) (room : Nat) (files : FileSystem)
    (arguments : List String) (circumstances : Circumstances) : Prop where
  exit_zero_iff : ∀ path, Arguments.request arguments = .run path →
    ((command.effect room files arguments circumstances).1 = .ended (.exit 0) ↔
      (∃ out document, command.Writes room files (.ofText path) out document) ∧
        circumstances = .calm)
  exit_one_iff : ∀ path, Arguments.request arguments = .run path →
    ((command.effect room files arguments circumstances).1 = .ended (.exit 1) ↔
      (∃ message, command.Reports room files (.ofText path) message) ∧
        circumstances.prints = true)
  failed_iff : ∀ path failure, Arguments.request arguments = .run path →
    ((command.effect room files arguments circumstances).1 = .ended (.failed failure) ↔
      command.Breaks room files (.ofText path) failure)
  brokenOff_iff : ∀ path, Arguments.request arguments = .run path →
    ((command.effect room files arguments circumstances).1 = .brokenOff ↔
      (∃ out document, command.Writes room files (.ofText path) out document) ∧
        circumstances.brokenOff? ≠ none)
  unprinted_iff : ∀ path, Arguments.request arguments = .run path →
    ((command.effect room files arguments circumstances).1 = .unprinted ↔
      ((∃ out document, command.Writes room files (.ofText path) out document) ∧
          circumstances.brokenOff? = none ∨
        ∃ message, command.Reports room files (.ofText path) message) ∧
        circumstances.prints = false)
  /-- If writing does not break off, the whole document is in its place, and nothing else has
  changed. -/
  written : ∀ path out document, Arguments.request arguments = .run path →
    command.Writes room files (.ofText path) out document → circumstances.brokenOff? = none →
    files.ReplacedBy out document.toUTF8.toList
      (command.effect room files arguments circumstances).2
  /-- If it does, the first bytes of the document are in its place, and nothing else has
  changed. -/
  cut : ∀ path out document count, Arguments.request arguments = .run path →
    command.Writes room files (.ofText path) out document →
    circumstances.brokenOff? = some count →
    files.ReplacedBy out (document.toUTF8.toList.take count)
      (command.effect room files arguments circumstances).2
  /-- The place of the document is in the directory of the source. -/
  beside : ∀ path out document, Arguments.request arguments = .run path →
    command.Writes room files (.ofText path) out document →
    ∃ directory, files.placeOf (.ofText path) = .ok (directory ++ [(Path.ofText path).name]) ∧
      files.placeOf out = .ok (directory ++ [(Path.ofText path).stem ++ command.nameEnd])
  /-- Unless a document is written nothing changes, whatever the circumstances. -/
  unchanged : (∀ path out document, Arguments.request arguments = .run path →
      ¬ command.Writes room files (.ofText path) out document) →
    (command.effect room files arguments circumstances).2 = files
  /-- All that a report consists of is a message. -/
  reported : ∀ path message, Arguments.request arguments = .run path →
    command.Reports room files (.ofText path) message →
    command.run room files.view arguments = .say 1 ("Error: " ++ message ++ "\n")
  refused : ∀ error, Arguments.request arguments = .refuse error →
    (command.effect room files arguments circumstances).1 = .ended (.exit 2)
  /-- If nothing goes wrong, a command that does not exit with 0 leaves nothing behind. -/
  spared : circumstances = .calm →
    (command.effect room files arguments circumstances).1 ≠ .ended (.exit 0) →
    (command.effect room files arguments circumstances).2 = files

end Command

open Command in
/-- Whatever the files, the arguments, the room for calls and the circumstances are, a command
changes no file unless its source has a document and the file for that can be opened, and
then it changes only that file, which is beside the source.  It exits with 0 exactly if the
whole document is written there and the message about it printed. -/
theorem command_leaves_behind (command : Command) (room : Nat) (files : FileSystem)
    (arguments : List String) (circumstances : Circumstances) :
    command.LeavesBehind room files arguments circumstances := by
  constructor
  case exit_zero_iff => exact fun path hrequest => (conclusion_iff hrequest).1
  case exit_one_iff => exact fun path hrequest => (conclusion_iff hrequest).2.1
  case failed_iff => exact fun path failure hrequest => (conclusion_iff hrequest).2.2.1 failure
  case brokenOff_iff => exact fun path hrequest => (conclusion_iff hrequest).2.2.2.1
  case unprinted_iff => exact fun path hrequest => (conclusion_iff hrequest).2.2.2.2
  case written =>
    intro path out document hrequest hwrites hbroken
    rw [hwrites.effect_eq hrequest, hbroken]
    exact hwrites.writable.replacedBy_write _
  case cut =>
    intro path out document count hrequest hwrites hbroken
    rw [hwrites.effect_eq hrequest, hbroken]
    exact hwrites.writable.replacedBy_write _
  case beside =>
    intro path out document hrequest hwrites
    obtain ⟨text, htext, -⟩ := hwrites.document
    obtain ⟨place, content, hplace, -⟩ := htext.holdsFile
    obtain ⟨directory, hdirectory, hbeside⟩ :=
      exists_beside command hwrites.suffix hplace hwrites.output
    exact ⟨directory, by rw [hplace, hdirectory], hbeside⟩
  case unchanged => exact effect_files_of_not_writes
  case reported =>
    intro path message hrequest hreports
    rw [run, hrequest]
    exact hreports.runOn_eq
  case refused =>
    intro error hrequest
    rw [effect, run, hrequest]
    rfl
  case spared =>
    intro hcalm hexit
    apply effect_files_of_not_writes
    intro path out document hrequest hwrites
    exact hexit ((conclusion_iff hrequest).1.mpr ⟨⟨out, document, hwrites⟩, hcalm⟩)

/-! ## What is left behind -/

namespace Command

/-- A source of some bytes, and a file in the place of its document. -/
def leftover (content : List UInt8) : FileSystem :=
  ⟨[(["A.jack"], .file content), (["AT.xml"], .file [0x6F, 0x6C, 0x64])], [], [], []⟩

theorem request_leftover : Arguments.request ["A.jack"] = .run "A.jack" := by
  cbv

theorem ofText_leftover : Path.ofText "A.jack" = ⟨.relative, ["A.jack"]⟩ := by
  cbv

theorem suffix_leftover : (Path.ofText "A.jack").suffix = Path.sourceSuffix := by
  rw [ofText_leftover]
  decide +kernel

theorem output_leftover :
    Command.tokenize.output (.ofText "A.jack") = .ok ⟨.relative, ["AT.xml"]⟩ := by
  rw [ofText_leftover]
  rfl

theorem holdsText_leftover {content : List UInt8} {characters : List Char}
    (hdecode : Text.decodeUtf8 content = .ok characters) (hfree : '\r' ∉ characters) :
    (leftover content).HoldsText (.ofText "A.jack") (String.ofList characters) := by
  rw [ofText_leftover]
  refine ⟨["A.jack"], content, characters, by cbv, by cbv, by simp [leftover], hdecode, ?_⟩
  rw [Text.normalizeNewlines_eq_self hfree]

theorem writable_leftover (content : List UInt8) :
    (leftover content).Writable ⟨.relative, ["AT.xml"]⟩ :=
  ⟨["AT.xml"], by cbv, by cbv; simp, by simp [leftover]⟩

theorem writes_leftover (room : Nat) :
    Command.tokenize.Writes room (leftover [0x78]) (.ofText "A.jack") ⟨.relative, ["AT.xml"]⟩
      "<tokens>\n<identifier> x </identifier>\n</tokens>\n" := by
  have hdocument : Document.ofTokens [⟨.identifier, .text "x", 1, 1⟩] =
      "<tokens>\n<identifier> x </identifier>\n</tokens>\n" := by cbv
  have htokens : JackSyntax.tokenize (String.ofList ['x']) =
      .ok [⟨.identifier, .text "x", 1, 1⟩] := by cbv
  have htext : (leftover [0x78]).HoldsText (.ofText "A.jack") (String.ofList ['x']) :=
    holdsText_leftover (by cbv) (by decide)
  rw [← hdocument]
  exact ⟨suffix_leftover, ⟨_, htext, .tokens htokens⟩, output_leftover, writable_leftover _⟩

end Command

open Command in
/-- If nothing goes wrong, the document is there instead of the file that was left over. -/
theorem command_leaves_behind_calm :
    let after := Command.tokenize.effect 0 (leftover [0x78]) ["A.jack"] .calm
    after.1 = .ended (.exit 0) ∧ (leftover [0x78]).ReplacedBy ⟨.relative, ["AT.xml"]⟩
      "<tokens>\n<identifier> x </identifier>\n</tokens>\n".toUTF8.toList after.2 := by
  have hall := command_leaves_behind .tokenize 0 (leftover [0x78]) ["A.jack"] .calm
  have hwrites := writes_leftover 0
  exact ⟨(hall.exit_zero_iff _ request_leftover).mpr ⟨⟨_, _, hwrites⟩, rfl⟩,
    hall.written _ _ _ request_leftover hwrites rfl⟩

/-! ### Failures -/

namespace Command

/-- Whether a command that does not exit with 0 leaves all files as they are. -/
def SparesFiles (command : Command) (circumstances : Circumstances) : Prop :=
  ∀ room files arguments,
    (command.effect room files arguments circumstances).1 ≠ .ended (.exit 0) →
      (command.effect room files arguments circumstances).2 = files

/-- Whether, if nothing goes wrong, the command for tokens exits with 0 for every source that
consists of lexemes and trivia. -/
def TakesAllLexemes : Prop :=
  ∀ room files arguments path text out segments last,
    Arguments.request arguments = .run path → (Path.ofText path).suffix = Path.sourceSuffix →
      files.HoldsText (.ofText path) text → Decomposes [] segments last text.toList →
        tokenize.output (.ofText path) = .ok out → files.Writable out →
          (tokenize.effect room files arguments .calm).1 = .ended (.exit 0)

/-- Where a command has written something else to the place of its document and does not exit
with 0, it has not left all files as they are. -/
theorem not_sparesFiles_of_effect {circumstances : Circumstances} {conclusion : Conclusion}
    {content : List UInt8} (hcontent : content ≠ [0x6F, 0x6C, 0x64])
    (hexit : conclusion ≠ .ended (.exit 0))
    (heffect : tokenize.effect 0 (leftover [0x78]) ["A.jack"] circumstances =
      (conclusion, (leftover [0x78]).write ⟨.relative, ["AT.xml"]⟩ content)) :
    ¬ tokenize.SparesFiles circumstances := by
  intro hspares
  have hsame : (leftover [0x78]).write ⟨.relative, ["AT.xml"]⟩ content = leftover [0x78] := by
    simpa only [heffect] using hspares 0 (leftover [0x78]) ["A.jack"] (by rw [heffect]; exact hexit)
  obtain ⟨place, hplace, hwritten, -⟩ := (writable_leftover [0x78]).replacedBy_write content
  have hknown : (leftover [0x78]).placeOf ⟨.relative, ["AT.xml"]⟩ = .ok ["AT.xml"] := by cbv
  obtain rfl := Except.ok.inj (hplace.symm.trans hknown)
  rw [hsame] at hwritten
  have hold : (leftover [0x78]).at? ["AT.xml"] = some (.file [0x6F, 0x6C, 0x64]) := by cbv
  rw [hold] at hwritten
  simp only [Option.some.injEq, Entry.file.injEq] at hwritten
  exact hcontent hwritten.symm

section Zeros

variable {count : Nat}

theorem holdsText_zeros (count : Nat) :
    (leftover (List.replicate count 0x30)).HoldsText (.ofText "A.jack")
      (String.ofList (List.replicate count '0')) := by
  have hascii : ∀ byte ∈ List.replicate count (0x30 : UInt8), byte < 0x80 := fun byte hbyte =>
    List.eq_of_mem_replicate hbyte ▸ by decide
  refine holdsText_leftover ?_ fun hreturn =>
    absurd (List.eq_of_mem_replicate hreturn) (by decide)
  rw [Text.decodeUtf8_of_ascii hascii, List.map_replicate]
  rfl

/-- However many zeros there are, they are the lexeme of one integer. -/
theorem decomposes_zeros (hcount : 0 < count) :
    ∃ segments, Decomposes [] segments [] (String.ofList (List.replicate count '0')).toList := by
  have hvalue : digitsValue (List.replicate count '0') ≤ Vocabulary.maxInteger := by
    have hzeros := digitsValue_zeros_append count []
    rw [List.append_nil] at hzeros
    exact hzeros ▸ Nat.zero_le _
  have hspells := Spells.integer (reachesDigits_zeros hcount).run hvalue
  have hparts := Decomposes.more .nil hspells (.last .nil)
  rw [List.nil_append, List.append_nil, ← String.toList_ofList (l := List.replicate count '0')]
    at hparts
  exact ⟨_, hparts⟩

theorem breaks_zeros (hcount : Vocabulary.maxDigits < count) :
    tokenize.Breaks 0 (leftover (List.replicate count 0x30)) (.ofText "A.jack")
      (.lexical ⟨.tooManyDigits (List.replicate count '0').length, 1, 1⟩) := by
  have hreach := reachesDigits_zeros (Nat.zero_lt_of_lt hcount)
  have hlong : Vocabulary.maxDigits < (List.replicate count '0').length := by
    rwa [List.length_replicate]
  exact .manyDigits suffix_leftover (holdsText_zeros count) (hreach.tokenize_of_long hlong) rfl

end Zeros

theorem not_takesAllLexemes : ¬ TakesAllLexemes := by
  intro htakes
  obtain ⟨segments, hparts⟩ := decomposes_zeros (show 0 < 4301 by decide)
  have hexit := htakes 0 _ _ _ _ _ _ _ request_leftover suffix_leftover (holdsText_zeros 4301)
    hparts output_leftover (writable_leftover _)
  rw [(breaks_zeros (by decide)).effect_eq request_leftover] at hexit
  exact absurd (Conclusion.ended.inj hexit) (by decide)

/-- A command that fails may leave an empty file where its document should be, or all of the
document, and it may fail where a zero is written with one digit too many. -/
theorem not_allOrNothing :
    ¬ tokenize.SparesFiles ⟨some 0, true⟩ ∧ ¬ tokenize.SparesFiles ⟨none, false⟩ ∧
      ¬ TakesAllLexemes := by
  have hwrites := writes_leftover 0
  refine ⟨?_, ?_, not_takesAllLexemes⟩
  · exact not_sparesFiles_of_effect (by decide) (by decide) (hwrites.effect_eq request_leftover)
  · exact not_sparesFiles_of_effect (by decide +kernel) (by decide)
      (hwrites.effect_eq request_leftover)

end Command

end JackSyntax
