import JackSyntax.Files.FileSystem

/-!
# Reading and writing files by their paths

A file system answers three questions about a path: whether a file stands there, what its
text is, and whether one can be opened there to be written.  Here the answers are put in
terms of the place that the path leads to, and writing a file is shown to change this one
place.

A source file and its document stand in the same directory (`placeOf_withName`): the path of
the document differs in the last name only, and where the name of the source is short
enough, so is that of the document.
-/

namespace JackSyntax

namespace FileSystem

variable {files : FileSystem} {path : Path}

/-! ## Answers about a path -/

/-- A path leads to a file. -/
def HoldsFile (files : FileSystem) (path : Path) : Prop :=
  ∃ place content, files.placeOf path = .ok place ∧ files.at? place = some (.file content)

/-- A path leads to a readable file with a text. -/
def HoldsText (files : FileSystem) (path : Path) (text : String) : Prop :=
  ∃ place content characters, files.placeOf path = .ok place ∧
    files.at? place = some (.file content) ∧ place ∉ files.unreadable ∧
    Text.decodeUtf8 content = .ok characters ∧
    text = String.ofList (Text.normalizeNewlines characters)

/-- A path leads to a place where a file can be opened to be written. -/
def Writable (files : FileSystem) (path : Path) : Prop :=
  ∃ place, files.placeOf path = .ok place ∧ files.at? place ≠ some .directory ∧
    place ∉ files.unwritable

theorem HoldsText.holdsFile {text : String} (hholds : files.HoldsText path text) :
    files.HoldsFile path := by
  obtain ⟨place, content, -, hplace, hat, -⟩ := hholds
  exact ⟨place, content, hplace, hat⟩

theorem isFile_eq_true_iff : files.view.isFile path = .ok true ↔ files.HoldsFile path := by
  unfold FileView.isFile view isFile entryAt HoldsFile
  cases files.placeOf path with
  | error fault => cases fault <;> simp
  | ok place =>
      cases hat : files.at? place with
      | none => simp [hat]
      | some entry => cases entry <;> simp [hat]

/-- A path can be too long to be asked about. -/
theorem isFile_eq_error_iff {error : FileError} :
    files.view.isFile path = .error error ↔
      files.placeOf path = .error .nameTooLong ∧ error = ⟨.nameTooLong, path⟩ := by
  unfold FileView.isFile view isFile entryAt
  cases files.placeOf path with
  | error fault => cases fault <;> simp [eq_comm]
  | ok place =>
      cases hat : files.at? place with
      | none => simp [hat]
      | some entry => cases entry <;> simp [hat]

theorem readText_eq_ok_iff {text : String} :
    files.view.readText path = .ok text ↔ files.HoldsText path text := by
  unfold FileView.readText view read entryAt HoldsText
  cases files.placeOf path with
  | error fault => simp
  | ok place =>
      cases hat : files.at? place with
      | none => simp [hat]
      | some entry =>
          cases entry with
          | directory => simp [hat]
          | file content =>
              by_cases hreadable : place ∈ files.unreadable
              · simp [hat, hreadable]
              · cases hdecode : Text.decodeUtf8 content with
                | error error => simp [hat, hreadable, hdecode]
                | ok characters => simp [hat, hreadable, hdecode, eq_comm]

theorem openFault?_eq_none_iff : (files.view path).openFault? = none ↔ files.Writable path := by
  unfold view openFault? Writable
  cases files.placeOf path with
  | error fault => simp
  | ok place =>
      by_cases hdirectory : files.at? place = some .directory
      · simp [hdirectory]
      · by_cases hunwritable : place ∈ files.unwritable <;> simp [hdirectory, hunwritable]

/-! ## Writing -/

/-- Two file systems differ at the place of one path, where a file with some bytes stands
in the second of them. -/
def ReplacedBy (files : FileSystem) (path : Path) (content : List UInt8)
    (after : FileSystem) : Prop :=
  ∃ place, files.placeOf path = .ok place ∧ after.at? place = some (.file content) ∧
    ∀ other, other ≠ place → after.at? other = files.at? other

theorem Writable.replacedBy_write (hwritable : files.Writable path) (content : List UInt8) :
    files.ReplacedBy path content (files.write path content) := by
  obtain ⟨place, hplace, hdirectory, -⟩ := hwritable
  have hroot : place ≠ [] := by
    rintro rfl
    exact hdirectory rfl
  refine ⟨place, hplace, ?_, fun other hother => ?_⟩
  · rw [write, hplace]
    exact files.at?_insert_self _ hroot
  · rw [write, hplace]
    exact files.at?_insert_of_ne _ hother

/-! ## Paths that differ in the last name -/

end FileSystem

theorem exists_intercalate_concat (separator : String) (names : List String) :
    ∃ before, ∀ name, separator.intercalate (names ++ [name]) = before ++ name := by
  induction names with
  | nil => exact ⟨"", fun name => by simp⟩
  | cons first names ih =>
      obtain ⟨before, hbefore⟩ := ih
      refine ⟨first ++ separator ++ before, fun name => ?_⟩
      rw [String.append_assoc, ← hbefore]
      cases names with
      | nil => exact String.intercalate_cons_cons
      | cons second names => exact String.intercalate_cons_cons

namespace Path

variable {root : PathRoot} {names : List String} {name other : String}

theorem exists_toText_concat (root : PathRoot) (names : List String) :
    ∃ before, ∀ name, toText ⟨root, names ++ [name]⟩ = before ++ name := by
  obtain ⟨before, hbefore⟩ := exists_intercalate_concat "/" names
  refine ⟨root.toText ++ before, fun name => ?_⟩
  rw [toText, if_neg (by simp), hbefore, String.append_assoc]

theorem fault?_eq_none_iff {path : Path} :
    path.fault? = none ↔
      '\x00' ∉ path.toText.toList ∧ path.toText.utf8ByteSize ≤ maxPathLength := by
  unfold fault?
  by_cases hnull : '\x00' ∈ path.toText.toList
  · simp [hnull]
  · by_cases hlong : maxPathLength < path.toText.utf8ByteSize
    · simp [hnull, hlong]
    · simp [hnull, hlong, Nat.not_lt.mp hlong]

/-- A path stays possible when its last name becomes no longer. -/
theorem fault?_concat (hfault : fault? ⟨root, names ++ [name]⟩ = none)
    (hnull : '\x00' ∈ other.toList → '\x00' ∈ name.toList)
    (hsize : other.utf8ByteSize ≤ name.utf8ByteSize) :
    fault? ⟨root, names ++ [other]⟩ = none := by
  obtain ⟨before, hbefore⟩ := exists_toText_concat root names
  rw [fault?_eq_none_iff, hbefore, String.toList_append, String.utf8ByteSize_append] at hfault ⊢
  obtain ⟨hfree, hlength⟩ := hfault
  refine ⟨?_, by omega⟩
  rw [List.mem_append, not_or] at hfree ⊢
  exact ⟨hfree.1, mt hnull hfree.2⟩

end Path

namespace FileSystem

variable {files : FileSystem} {names : List String} {name other : String} {place : List String}

theorem step_eq_ok_iff (hname : name ≠ "..") {next : List String} :
    step place name = .ok next ↔ name.utf8ByteSize ≤ maxNameLength ∧ place ++ [name] = next := by
  unfold step
  by_cases hlong : maxNameLength < name.utf8ByteSize
  · simp [hname, hlong, Nat.not_le.mpr hlong]
  · simp [hname, hlong, Nat.not_lt.mp hlong]

/-- Names that differ in the last one only lead to places in the same directory. -/
theorem follow_concat {start : List String} (hname : name ≠ "..") (hother : other ≠ "..")
    (hsize : other.utf8ByteSize ≤ name.utf8ByteSize)
    (hfollow : files.follow start (names ++ [name]) = .ok place) :
    ∃ directory, place = directory ++ [name] ∧
      files.follow start (names ++ [other]) = .ok (directory ++ [other]) := by
  rw [follow_append] at hfollow ⊢
  cases hnames : files.follow start names with
  | error fault =>
      rw [hnames] at hfollow
      cases hfollow
  | ok directory =>
      refine ⟨directory, ?_⟩
      rw [hnames] at hfollow
      simp only [follow] at hfollow ⊢
      cases hat : files.at? directory with
      | none => simp [hat] at hfollow
      | some entry =>
          cases entry with
          | file content => simp [hat] at hfollow
          | directory =>
              rw [hat] at hfollow
              cases hstep : step directory name with
              | error fault => simp [hstep] at hfollow
              | ok next =>
                  rw [hstep] at hfollow
                  obtain ⟨hlength, hnext⟩ := (step_eq_ok_iff hname).mp hstep
                  have hmore : step directory other = .ok (directory ++ [other]) :=
                    (step_eq_ok_iff hother).mpr ⟨Nat.le_trans hsize hlength, rfl⟩
                  cases hfollow
                  exact ⟨hnext.symm, by rw [hmore]⟩

theorem placeOf_eq_ok_iff {path : Path} :
    files.placeOf path = .ok place ↔
      path.fault? = none ∧ files.follow (files.start path.root) path.names = .ok place := by
  unfold placeOf
  cases path.fault? <;> simp

/-- A path with another last name, if that is no longer, leads to the same directory. -/
theorem placeOf_withName {path sibling : Path} (hplace : files.placeOf path = .ok place)
    (hsibling : path.withName other = .ok sibling) (hname : path.name ≠ "..")
    (hother : other ≠ "..") (hnull : '\x00' ∈ other.toList → '\x00' ∈ path.name.toList)
    (hsize : other.utf8ByteSize ≤ path.name.utf8ByteSize) :
    ∃ directory, place = directory ++ [path.name] ∧
      files.placeOf sibling = .ok (directory ++ [other]) := by
  unfold Path.withName at hsibling
  split at hsibling
  · cases hsibling
  · next hne =>
      cases hsibling
      have hnames : path.names.dropLast ++ [path.name] = path.names := by
        rw [Path.name, List.getLastD_eq_getLast?, List.getLast?_eq_some_getLast hne]
        exact List.dropLast_concat_getLast hne
      obtain ⟨hfault, hfollow⟩ := placeOf_eq_ok_iff.mp hplace
      rw [← hnames] at hfollow
      obtain ⟨directory, hdirectory, hbeside⟩ := follow_concat hname hother hsize hfollow
      have hpath : path = ⟨path.root, path.names.dropLast ++ [path.name]⟩ := by rw [hnames]
      rw [hpath] at hfault
      exact ⟨directory, hdirectory,
        placeOf_eq_ok_iff.mpr ⟨Path.fault?_concat hfault hnull hsize, hbeside⟩⟩

end FileSystem

end JackSyntax
