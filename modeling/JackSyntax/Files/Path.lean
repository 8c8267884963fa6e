import JackSyntax.Text.Quoted

/-!
# Paths

A path is a root and the names that lead down from it.  Reading one from a text drops
empty names and the name `.`; the name `..` is kept.  A path that begins with exactly
two slashes has a root of its own, and more than two count as one.

The last name of a path ends in a suffix if it has a dot that is neither its first nor
its last character: the suffix begins with the last dot, and the stem is what comes
before it.
-/

namespace JackSyntax

/-- Where a path starts. -/
inductive PathRoot
  /-- The working directory. -/
  | relative
  | slash
  | twoSlashes
deriving DecidableEq

/-- A root and the names from there. -/
structure Path where
  root : PathRoot
  names : List String
deriving DecidableEq

/-- The root as a text. -/
def PathRoot.toText : PathRoot → String
  | relative => ""
  | slash => "/"
  | twoSlashes => "//"

namespace Path

/-! ## Reading and printing -/

/-- The stretches between the slashes of a text. -/
def splitSlashes : List Char → List (List Char)
  | [] => [[]]
  | c :: text =>
      match splitSlashes text with
      | [] => [[c]]
      | name :: names => if c = '/' then [] :: name :: names else (c :: name) :: names

/-- The root that a text begins with. -/
def rootOf : List Char → PathRoot
  | '/' :: '/' :: '/' :: _ => .slash
  | '/' :: '/' :: _ => .twoSlashes
  | '/' :: _ => .slash
  | _ => .relative

/-- The path that a text writes. -/
def ofText (text : String) : Path where
  root := rootOf text.toList
  names :=
    ((splitSlashes text.toList).map String.ofList).filter fun name => name ≠ "" ∧ name ≠ "."

/-- The path as a text; the empty path is a dot. -/
def toText (path : Path) : String :=
  if path.root = .relative ∧ path.names = [] then "."
  else path.root.toText ++ String.intercalate "/" path.names

/-! ## The last name -/

/-- The last name, empty for a root and for the working directory. -/
def name (path : Path) : String :=
  path.names.getLastD ""

/-- The path without its last name. -/
def parent (path : Path) : Path :=
  { path with names := path.names.dropLast }

/-- The stem and the suffix of a name. -/
def splitName (name : String) : String × String :=
  let reversed := name.toList.reverse
  let ending := reversed.takeWhile (· ≠ '.')
  match reversed.dropWhile (· ≠ '.') with
  | dot :: before =>
      if ending.isEmpty || before.isEmpty then (name, "")
      else (String.ofList before.reverse, String.ofList (dot :: ending.reverse))
  | [] => (name, "")

/-- The stem and the suffix make up the name. -/
theorem splitName_append (name : String) : (splitName name).1 ++ (splitName name).2 = name := by
  have hsplit : name.toList.reverse.takeWhile (· ≠ '.') ++
      name.toList.reverse.dropWhile (· ≠ '.') = name.toList.reverse :=
    List.takeWhile_append_dropWhile
  unfold splitName
  dsimp only
  split
  · next dot before hrest =>
      split
      · simp
      · rw [hrest] at hsplit
        have hname := congrArg List.reverse hsplit
        simp only [List.reverse_append, List.reverse_cons, List.reverse_reverse,
          List.append_assoc, List.singleton_append] at hname
        rw [← String.ofList_append, hname, String.ofList_toList]
  · simp

/-- The last name without its suffix. -/
def stem (path : Path) : String :=
  (splitName path.name).1

/-- The suffix of the last name, empty if there is none. -/
def suffix (path : Path) : String :=
  (splitName path.name).2

/-- A path without a last name, which can name no file. -/
structure EmptyName where
  path : Path
deriving DecidableEq

/-- The error in words. -/
def EmptyName.message (error : EmptyName) : String :=
  "PosixPath(" ++ Text.quoted error.path.toText ++ ") has an empty name"

/-- The path with another last name. -/
def withName (path : Path) (name : String) : Except EmptyName Path :=
  if path.names = [] then .error ⟨path⟩
  else .ok { path with names := path.names.dropLast ++ [name] }

/-! ## Source files and their documents -/

/-- The suffix of a source file. -/
def sourceSuffix : String := ".jack"

/-- The file for the tree of a source file. -/
def treeOutput (source : Path) : Except EmptyName Path :=
  source.withName (source.stem ++ ".xml")

/-- The file for the tokens of a source file. -/
def tokenOutput (source : Path) : Except EmptyName Path :=
  source.withName (source.stem ++ "T.xml")

end Path

end JackSyntax
