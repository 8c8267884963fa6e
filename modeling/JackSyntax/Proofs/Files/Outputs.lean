import JackSyntax.Files.Path

/-!
# The files beside a source file

The documents of a source file stand beside it: in the same directory, under the stem of its
name and an ending.  `Path.beside` is a path with another last name, and two such paths are
the same exactly when the directories and the names are (`beside_inj`), so what is left are
facts about names.

* `splitName_append_suffix`: the last dot of a name is where its suffix begins, however many
  dots there are before it.
* `withSuffix_eq`: to cut the suffix off and put another one in its place is to put the new
  one after the stem.
* `Lawful`: the names that a path can have.  Every path that is read from a text is lawful,
  and so are the files beside a lawful path.
* `outputs_collide_iff`: no document overwrites a source file, and two documents are in the
  same place only when one source is named for the other.
-/

namespace JackSyntax.Path

variable {path other : Path} {name stem : String}

/-! ## The suffix of a name -/

/-- A name that ends in a dot and more, without a dot there, has that as its suffix. -/
theorem splitName_append_suffix {suffix : String} {ending : List Char} (hstem : stem ≠ "")
    (hsuffix : suffix.toList = '.' :: ending) (hending : ending ≠ []) (hdots : '.' ∉ ending) :
    splitName (stem ++ suffix) = (stem, suffix) := by
  have hreversed : (stem ++ suffix).toList.reverse =
      ending.reverse ++ '.' :: stem.toList.reverse := by
    rw [String.toList_append, hsuffix, List.reverse_append, List.reverse_cons, List.append_assoc]
    rfl
  have hplain : ∀ c ∈ ending.reverse, decide (c ≠ '.') = true := by
    intro c hc
    rw [decide_eq_true_eq]
    rintro rfl
    exact hdots (List.mem_reverse.mp hc)
  have htake : (ending.reverse ++ '.' :: stem.toList.reverse).takeWhile (· ≠ '.') =
      ending.reverse := by
    rw [List.takeWhile_append_of_pos hplain, List.takeWhile_cons_of_neg (by simp), List.append_nil]
  have hdrop : (ending.reverse ++ '.' :: stem.toList.reverse).dropWhile (· ≠ '.') =
      '.' :: stem.toList.reverse := by
    rw [List.dropWhile_append_of_pos hplain, List.dropWhile_cons_of_neg (by simp)]
  unfold splitName
  dsimp only
  rw [hreversed, htake, hdrop]
  simp [hending, hstem, ← hsuffix]

/-- What has a suffix has a stem before it. -/
theorem fst_splitName_ne_empty (hsuffix : (splitName name).2 ≠ "") : (splitName name).1 ≠ "" := by
  unfold splitName at hsuffix ⊢
  dsimp only at hsuffix ⊢
  split at hsuffix
  · next dot before hrest =>
      split at hsuffix
      · exact absurd rfl hsuffix
      · next hparts =>
          rw [if_neg hparts]
          simp only [Bool.or_eq_true, not_or, List.isEmpty_iff] at hparts
          simpa [String.ofList_eq_empty_iff] using hparts.2
  · exact absurd rfl hsuffix

theorem stem_append_suffix (path : Path) : path.stem ++ path.suffix = path.name :=
  splitName_append path.name

/-! ## Another last name -/

/-- The path in the same directory with another last name. -/
def beside (path : Path) (name : String) : Path :=
  { path with names := path.names.dropLast ++ [name] }

@[simp] theorem beside_name (path : Path) (name : String) : (path.beside name).name = name := by
  simp [beside, Path.name]

theorem names_ne_nil (hname : path.name ≠ "") : path.names ≠ [] := by
  intro hnil
  rw [Path.name, hnil] at hname
  exact hname rfl

@[simp] theorem beside_parent (path : Path) (name : String) :
    (path.beside name).parent = path.parent := by
  simp [beside, parent]

theorem beside_self (hname : path.name ≠ "") : path.beside path.name = path := by
  have hnames := names_ne_nil hname
  have hlast : path.names.dropLast ++ [path.name] = path.names := by
    rw [Path.name, List.getLastD_eq_getLast?, List.getLast?_eq_some_getLast hnames]
    exact List.dropLast_concat_getLast hnames
  rw [beside, hlast]

theorem beside_inj {name' : String} :
    path.beside name = other.beside name' ↔ path.parent = other.parent ∧ name = name' := by
  simp [beside, parent, and_assoc]

theorem withName_eq_beside (hname : path.name ≠ "") (name : String) :
    path.withName name = .ok (path.beside name) := by
  rw [withName, if_neg (names_ne_nil hname)]
  rfl

/-- The path with another suffix: the old one is cut off the last name by its length, and the
new one comes in its place. -/
def withSuffix (path : Path) (suffix : String) : Except EmptyName Path :=
  if path.name = "" then .error ⟨path⟩
  else .ok (path.beside
    (String.ofList (path.name.toList.take (path.name.length - path.suffix.length)) ++ suffix))

/-- Putting another suffix in place of the old one is putting it after the stem. -/
theorem withSuffix_eq (hname : path.name ≠ "") (suffix : String) :
    path.withSuffix suffix = path.withName (path.stem ++ suffix) := by
  have hlength : path.name.length - path.suffix.length = path.stem.toList.length := by
    rw [← stem_append_suffix path, String.length_append, String.length_toList]
    omega
  have hkept : path.name.toList.take (path.name.length - path.suffix.length) =
      path.stem.toList := by
    rw [hlength, ← stem_append_suffix path, String.toList_append, List.take_left]
  rw [withSuffix, if_neg hname, hkept, String.ofList_toList, withName_eq_beside hname]

/-! ## Lawful paths -/

/-- Whether a text can be a name in a path. -/
def IsName (name : String) : Prop :=
  name ≠ "" ∧ name ≠ "." ∧ '/' ∉ name.toList

/-- Whether all names of a path can be names. -/
def Lawful (path : Path) : Prop :=
  ∀ name ∈ path.names, IsName name

theorem splitSlashes_ne_nil (text : List Char) : splitSlashes text ≠ [] := by
  cases text with
  | nil => exact List.cons_ne_nil _ _
  | cons c text =>
      rw [splitSlashes]
      split
      · exact List.cons_ne_nil _ _
      · split <;> exact List.cons_ne_nil _ _

theorem slash_not_mem_splitSlashes {text : List Char} :
    ∀ piece ∈ splitSlashes text, '/' ∉ piece := by
  induction text with
  | nil => simp [splitSlashes]
  | cons c text ih =>
      rw [splitSlashes]
      split
      · next hpieces => exact absurd hpieces (splitSlashes_ne_nil text)
      · next first pieces hpieces =>
          rw [hpieces] at ih
          obtain ⟨hfirst, hpieces⟩ := List.forall_mem_cons.mp ih
          split
          · exact List.forall_mem_cons.mpr ⟨List.not_mem_nil, ih⟩
          · next hc =>
              refine List.forall_mem_cons.mpr ⟨fun hslash => ?_, hpieces⟩
              rcases List.mem_cons.mp hslash with hslash | hslash
              · exact hc hslash.symm
              · exact hfirst hslash

/-- A path that is read from a text is lawful. -/
theorem lawful_ofText (text : String) : (ofText text).Lawful := by
  intro name hname
  simp only [ofText, List.mem_filter, List.mem_map, decide_eq_true_eq] at hname
  obtain ⟨⟨piece, hpiece, rfl⟩, hempty, hdot⟩ := hname
  refine ⟨hempty, hdot, ?_⟩
  rw [String.toList_ofList]
  exact slash_not_mem_splitSlashes piece hpiece

theorem Lawful.beside (hpath : path.Lawful) (hname : IsName name) : (path.beside name).Lawful := by
  intro part hpart
  rcases List.mem_append.mp hpart with hpart | hpart
  · exact hpath part (List.dropLast_subset _ hpart)
  · rw [List.mem_singleton.mp hpart]
    exact hname

/-- The stem of a name with more than one character after it is a name. -/
theorem Lawful.isName_stem_append {ending : String} (hpath : path.Lawful) (hname : path.name ≠ "")
    (hending : 1 < ending.length) (hslash : '/' ∉ ending.toList) :
    IsName (path.stem ++ ending) := by
  have hlength : 1 < (path.stem ++ ending).length := by
    rw [String.length_append]
    omega
  have hmem : path.name ∈ path.names := by
    rw [Path.name, List.getLastD_eq_getLast?, List.getLast?_eq_some_getLast (names_ne_nil hname)]
    exact List.getLast_mem _
  have hstem : '/' ∉ path.stem.toList := by
    intro hstem
    apply (hpath path.name hmem).2.2
    rw [← stem_append_suffix path, String.toList_append]
    exact List.mem_append_left _ hstem
  refine ⟨?_, ?_, ?_⟩
  · intro hempty
    rw [hempty] at hlength
    exact absurd hlength (by decide)
  · intro hdot
    rw [hdot] at hlength
    exact absurd hlength (by decide)
  · rw [String.toList_append, List.mem_append]
    rintro (hinStem | hinEnding)
    · exact hstem hinStem
    · exact hslash hinEnding

/-! ## Source files -/

section Source

variable {source : Path} (hsource : source.suffix = sourceSuffix)
include hsource

theorem name_of_source : source.name = source.stem ++ sourceSuffix := by
  rw [← hsource, stem_append_suffix]

theorem name_ne_empty_of_source : source.name ≠ "" := by
  rw [name_of_source hsource, ne_eq, String.append_eq_empty_iff]
  exact fun hempty => absurd hempty.2 (by decide)

theorem stem_ne_empty_of_source : source.stem ≠ "" := by
  refine fst_splitName_ne_empty ?_
  rw [← suffix, hsource]
  decide

theorem treeOutput_eq : source.treeOutput = .ok (source.beside (source.stem ++ ".xml")) :=
  withName_eq_beside (name_ne_empty_of_source hsource) _

theorem tokenOutput_eq : source.tokenOutput = .ok (source.beside (source.stem ++ "T.xml")) :=
  withName_eq_beside (name_ne_empty_of_source hsource) _

/-- A source file is known by its directory and its stem. -/
theorem eq_of_source {other : Path} (hother : other.suffix = sourceSuffix)
    (hparent : source.parent = other.parent) (hstem : source.stem = other.stem) :
    source = other := by
  have hname : source.name = other.name := by
    rw [name_of_source hsource, name_of_source hother, hstem]
  rw [← beside_self (name_ne_empty_of_source hsource),
    ← beside_self (name_ne_empty_of_source hother)]
  exact beside_inj.mpr ⟨hparent, hname⟩

end Source

theorem suffix_beside_xml (path : Path) (hstem : stem ≠ "") :
    (path.beside (stem ++ ".xml")).suffix = ".xml" := by
  have hsplit : splitName (stem ++ ".xml") = (stem, ".xml") :=
    @splitName_append_suffix stem ".xml" ['x', 'm', 'l'] hstem (by decide) (by decide) (by decide)
  rw [suffix, beside_name, hsplit]

theorem append_tokens_ending (stem : String) : stem ++ "T.xml" = stem ++ "T" ++ ".xml" := by
  rw [String.append_assoc]
  rfl

/-- What holds of the files for the tree and for the tokens of a source file. -/
structure DocumentFiles (source tree tokens : Path) : Prop where
  tree_parent : tree.parent = source.parent
  tokens_parent : tokens.parent = source.parent
  tree_name : tree.name = source.stem ++ ".xml"
  tokens_name : tokens.name = source.stem ++ "T.xml"
  /-- The file for the tree is the source with another suffix. -/
  tree_withSuffix : source.withSuffix ".xml" = .ok tree
  tree_ne_tokens : tree ≠ tokens
  /-- Neither is a source file. -/
  ne_source : ∀ file : Path, file.suffix = sourceSuffix → tree ≠ file ∧ tokens ≠ file
  lawful : source.Lawful → tree.Lawful ∧ tokens.Lawful

theorem documentFiles_beside {source : Path} (hsource : source.suffix = sourceSuffix) :
    DocumentFiles source (source.beside (source.stem ++ ".xml"))
      (source.beside (source.stem ++ "T.xml")) where
  tree_parent := beside_parent _ _
  tokens_parent := beside_parent _ _
  tree_name := beside_name _ _
  tokens_name := beside_name _ _
  tree_withSuffix := by
    rw [withSuffix_eq (name_ne_empty_of_source hsource)]
    exact treeOutput_eq hsource
  tree_ne_tokens := by
    rw [ne_eq, beside_inj, String.append_right_inj]
    exact fun hsame => absurd hsame.2 (by decide)
  ne_source := by
    -- a document has another suffix than a source file, wherever the two are
    have hdocument : ∀ {stem : String}, stem ≠ "" → ∀ file : Path, file.suffix = sourceSuffix →
        source.beside (stem ++ ".xml") ≠ file := by
      rintro stem hstem file hfile rfl
      rw [suffix_beside_xml source hstem] at hfile
      exact absurd hfile (by decide)
    intro file hfile
    rw [append_tokens_ending]
    refine ⟨hdocument (stem_ne_empty_of_source hsource) file hfile, hdocument ?_ file hfile⟩
    rw [ne_eq, String.append_eq_empty_iff]
    exact fun hempty => absurd hempty.2 (by decide)
  lawful := fun hlawful =>
    have hname := name_ne_empty_of_source hsource
    ⟨hlawful.beside (hlawful.isName_stem_append hname (by decide) (by decide)),
      hlawful.beside (hlawful.isName_stem_append hname (by decide) (by decide))⟩

/-! ## The main result -/

/-- The two documents of a source file exist, stand beside it under its stem, and are no
source files.  Source files with the same document of the tree are the same, and so are those
with the same document of the tokens.  A document of a tree and a document of tokens collide
exactly when the first source is in the directory of the second and its stem is that of the
second and a `T`. -/
theorem outputs_collide_iff {source other : Path} (hsource : source.suffix = sourceSuffix)
    (hother : other.suffix = sourceSuffix) :
    (∃ tree tokens, source.treeOutput = .ok tree ∧ source.tokenOutput = .ok tokens ∧
        DocumentFiles source tree tokens) ∧
      (source.treeOutput = other.treeOutput → source = other) ∧
      (source.tokenOutput = other.tokenOutput → source = other) ∧
      (source.treeOutput = other.tokenOutput ↔
        source.parent = other.parent ∧ source.stem = other.stem ++ "T") := by
  refine ⟨⟨_, _, treeOutput_eq hsource, tokenOutput_eq hsource, documentFiles_beside hsource⟩, ?_⟩
  rw [treeOutput_eq hsource, tokenOutput_eq hsource, treeOutput_eq hother, tokenOutput_eq hother]
  simp only [Except.ok.injEq, beside_inj, String.append_left_inj]
  refine ⟨?_, ?_, ?_⟩
  · rintro ⟨hparent, hstem⟩
    exact eq_of_source hsource hother hparent hstem
  · rintro ⟨hparent, hstem⟩
    exact eq_of_source hsource hother hparent hstem
  · rw [append_tokens_ending, String.append_left_inj]

theorem outputs_collide_iff_named_for :
    let source := ofText "/game/..MainT.jack"
    let other := ofText "/game/..Main.jack"
    source.suffix = sourceSuffix ∧ other.suffix = sourceSuffix ∧
      source.treeOutput = other.tokenOutput ∧
      ∃ tree tokens, source.treeOutput = .ok tree ∧ source.tokenOutput = .ok tokens ∧
        tree.Lawful ∧ tokens.Lawful ∧ tree ≠ source ∧ tree ≠ other := by
  intro source other
  have hsource : source.suffix = sourceSuffix := by decide +kernel
  have hother : other.suffix = sourceSuffix := by decide +kernel
  obtain ⟨⟨tree, tokens, htree, htokens, hdocuments⟩, -, -, hcollide⟩ :=
    outputs_collide_iff hsource hother
  obtain ⟨hlawfulTree, hlawfulTokens⟩ := hdocuments.lawful (lawful_ofText _)
  have hsame : source.parent = other.parent ∧ source.stem = other.stem ++ "T" := by
    decide +kernel
  exact ⟨hsource, hother, hcollide.mpr hsame, tree, tokens, htree, htokens, hlawfulTree,
    hlawfulTokens, (hdocuments.ne_source source hsource).1, (hdocuments.ne_source other hother).1⟩

end JackSyntax.Path
