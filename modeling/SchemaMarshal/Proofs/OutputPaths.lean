import SchemaMarshal.Emission
import SchemaMarshal.Proofs.References

/-! Where the sources of a report are written.

`Path.names` are the steps that a path walks. Pushing a plain part adds one step, so the path of a
marshaller walks the output directory, then the package, then to one file. A file name has a point and
a directory has none, so no file stands where another one needs a directory; names, suffixes and
packages can be told apart again, so no two files meet.
-/

set_option autoImplicit false

namespace SchemaMarshal

theorem Text.splitAt_append_cons (separator : Char) (left right : List Char) :
    splitAt separator (left ++ separator :: right) = splitAt separator left ++ splitAt separator right := by
  induction left with
  | nil => simp [splitAt]
  | cons c left ih =>
    rw [List.cons_append, splitAt, splitAt]
    split
    · rw [ih, List.cons_append]
    · rw [ih]
      cases parts : splitAt separator left with
      | nil => exact absurd parts (splitAt_ne_nil separator left)
      | cons first others => rfl

namespace Path

/-- The pieces of a path that lead from one directory to another. -/
def names (path : String) : List String := (pieces path).filter fun piece => piece ≠ "" && piece ≠ "."

/-- A part that names one entry of a directory. -/
structure Plain (part : String) : Prop where
  present : part ≠ ""
  here : part ≠ "."
  above : part ≠ ".."
  single : '/' ∉ part.toList

theorem pieces_append (base part : String) : pieces (base ++ "/" ++ part) = pieces base ++ pieces part := by
  have text : (base ++ "/" ++ part).toList = base.toList ++ '/' :: part.toList := by simp [String.toList_append]
  rw [pieces, Text.segments, text, Text.splitAt_append_cons, List.map_append]
  rfl

theorem names_append (base part : String) : names (base ++ "/" ++ part) = names base ++ names part := by
  rw [names, pieces_append, List.filter_append]
  rfl

theorem Plain.names {part : String} (plain : Plain part) : Path.names part = [part] := by
  rw [Path.names, pieces, Text.segments, Name.splitAt_of_not_mem plain.single]
  simp [plain.present, plain.here]

theorem names_slash (base : String) : names (base ++ "/") = names base := by
  have nothing : names "" = [] := rfl
  rw [← String.append_empty (s := base ++ "/"), names_append, nothing, List.append_nil]

theorem names_push (base : String) {part : String} (plain : Plain part) :
    names (push base part) = names base ++ [part] := by
  have relative : isAbsolute part = false := by
    rw [isAbsolute, decide_eq_false_iff_not]
    exact fun head => plain.single (List.mem_of_head? head)
  rw [push, relative, if_neg Bool.false_ne_true]
  split
  · rename_i direct
    rw [Bool.or_eq_true, decide_eq_true_eq] at direct
    rcases direct with rfl | ends
    · rw [String.empty_append, plain.names]
      rfl
    · obtain ⟨front, split⟩ := List.getLast?_eq_some_iff.mp (of_decide_eq_true ends)
      obtain rfl : base = String.ofList front ++ "/" := by
        rw [← String.toList_inj, split]
        simp [String.toList_append]
      rw [names_append, names_slash, plain.names]
  · rw [names_append, plain.names]

theorem names_foldl_push (base : String) {parts : List String} (plain : ∀ part ∈ parts, Plain part) :
    names (parts.foldl push base) = names base ++ parts := by
  induction parts generalizing base with
  | nil => simp
  | cons part parts ih =>
    rw [List.foldl_cons, ih (push base part) fun other member => plain other (List.mem_cons_of_mem _ member),
      names_push base (plain part (by simp)), List.append_assoc, List.singleton_append]

end Path

theorem Path.plain_of_isWord {word tail : String} (valid : Name.isWord word.toList = true)
    (single : '/' ∉ tail.toList) : Path.Plain (word ++ tail) := by
  obtain ⟨head, rest, text⟩ := List.exists_cons_of_ne_nil (l := word.toList) (by
    intro empty
    rw [empty] at valid
    cases valid)
  have letter : Lexeme.isLetter head = true := by
    rw [text, Name.isWord, Bool.and_eq_true] at valid
    exact valid.1
  -- None of the excluded parts begins with a letter.
  have starts {other : String} (same : word ++ tail = other) : other.toList.head? = some head := by
    rw [← same, String.toList_append, text]
    rfl
  refine ⟨fun same => ?_, fun same => ?_, fun same => ?_, ?_⟩
  · cases starts same
  · cases starts same
    cases letter
  · cases starts same
    cases letter
  · rw [String.toList_append, List.mem_append, not_or]
    exact ⟨Name.not_mem_of_isWord valid (by decide), single⟩

/-- The suffixes stay within a file name, and what they are appended to can be told from the result. -/
structure Conventions.Separable (conventions : Conventions) : Prop where
  message : '/' ∉ conventions.messageSuffix.toList
  enumeration : '/' ∉ conventions.enumSuffix.toList
  apart : conventions.messageSuffix = conventions.enumSuffix ∨
    ¬ conventions.messageSuffix.toList <:+ conventions.enumSuffix.toList ∧
      ¬ conventions.enumSuffix.toList <:+ conventions.messageSuffix.toList

namespace Marshaller

/-- A marshaller is called by a word and one of the suffixes, in a package of words. -/
structure Placed (conventions : Conventions) (marshaller : Marshaller) : Prop where
  package : marshaller.package = "" ∨ Name.isPath marshaller.package.toList = true
  named : ∃ name suffix, Name.isWord name.toList = true ∧
    suffix ∈ [conventions.messageSuffix, conventions.enumSuffix] ∧ marshaller.name = name ++ suffix ∧
    marshaller.typeName = qualify marshaller.package name

def directories (marshaller : Marshaller) : List String :=
  (Text.segments '.' marshaller.package).filter (· ≠ "")

def steps (marshaller : Marshaller) : List String := marshaller.directories ++ [marshaller.name ++ ".java"]

theorem path_eq (out : String) (marshaller : Marshaller) :
    marshaller.path out = marshaller.steps.foldl Path.push out := by
  rw [steps, List.foldl_append]
  rfl

section

variable {conventions : Conventions} {marshaller : Marshaller} (placed : marshaller.Placed conventions)
include placed

theorem Placed.directories_eq :
    marshaller.package = "" ∧ marshaller.directories = [] ∨
      (∀ word ∈ marshaller.directories, Name.isWord word.toList = true) ∧
        marshaller.directories = Text.segments '.' marshaller.package := by
  rcases placed.package with empty | path
  · refine Or.inl ⟨empty, ?_⟩
    rw [directories, empty]
    rfl
  · have words : ∀ word ∈ Text.segments '.' marshaller.package, Name.isWord word.toList = true := by
      intro word member
      obtain ⟨letters, listed, rfl⟩ := List.mem_map.mp member
      rw [String.toList_ofList]
      exact List.all_eq_true.mp path letters listed
    have all : marshaller.directories = Text.segments '.' marshaller.package := by
      refine List.filter_eq_self.mpr fun word member => decide_eq_true ?_
      rintro rfl
      cases words "" member
    rw [all]
    exact Or.inr ⟨words, rfl⟩

theorem Placed.isWord : ∀ word ∈ marshaller.directories, Name.isWord word.toList = true := by
  rcases placed.directories_eq with ⟨-, none⟩ | ⟨words, -⟩
  · simp [none]
  · exact words

theorem Placed.join : Text.join '.' marshaller.directories = marshaller.package := by
  rcases placed.directories_eq with ⟨empty, none⟩ | ⟨-, all⟩
  · rw [none, empty]
    rfl
  · have letters : ∀ parts : List (List Char), (parts.map String.ofList).map String.toList = parts := by simp
    rw [all, Text.join, Text.segments, letters, Text.joinChars_splitAt, String.ofList_toList]

theorem Placed.plain (separable : conventions.Separable) : ∀ step ∈ marshaller.steps, Path.Plain step := by
  intro step member
  rcases List.mem_append.mp member with directory | file
  · have plain : Path.Plain (step ++ "") := Path.plain_of_isWord (placed.isWord step directory) (by decide)
    rwa [String.append_empty] at plain
  · rw [List.mem_singleton.mp file]
    obtain ⟨name, suffix, word, known, called, -⟩ := placed.named
    rw [called, String.append_assoc]
    apply Path.plain_of_isWord word
    have slash : '/' ∉ suffix.toList := by
      rcases List.mem_pair.mp known with rfl | rfl
      · exact separable.message
      · exact separable.enumeration
    simpa [String.toList_append] using slash

end

end Marshaller

theorem Conventions.Separable.append_inj {conventions : Conventions} (separable : conventions.Separable)
    {name suffix other otherSuffix : String}
    (known : suffix ∈ [conventions.messageSuffix, conventions.enumSuffix])
    (otherKnown : otherSuffix ∈ [conventions.messageSuffix, conventions.enumSuffix])
    (same : name ++ suffix = other ++ otherSuffix) : name = other := by
  rw [← String.toList_inj, String.toList_append, String.toList_append] at same
  have ends : suffix.toList <:+ name.toList ++ suffix.toList := List.suffix_append _ _
  have endsOther : otherSuffix.toList <:+ name.toList ++ suffix.toList := same ▸ List.suffix_append _ _
  have nested := List.suffix_or_suffix_of_suffix ends endsOther
  have sameSuffix : suffix = otherSuffix := by
    rcases separable.apart with equal | ⟨notEnum, notMessage⟩
    · rw [equal] at known otherKnown
      simp_all
    · rcases List.mem_pair.mp known with rfl | rfl <;> rcases List.mem_pair.mp otherKnown with rfl | rfl
      · rfl
      · exact absurd nested (not_or.mpr ⟨notEnum, notMessage⟩)
      · exact absurd nested (not_or.mpr ⟨notMessage, notEnum⟩)
      · rfl
  rw [sameSuffix] at same
  exact String.toList_inj.mp (List.append_cancel_right same)

/-- A file stands neither where another one does nor where another one needs a directory. -/
theorem Marshaller.Placed.typeName_eq {conventions : Conventions} (separable : conventions.Separable)
    {marshaller other : Marshaller} (placed : marshaller.Placed conventions) (otherPlaced : other.Placed conventions)
    (front : marshaller.steps <+: other.steps) : marshaller.typeName = other.typeName := by
  rcases List.prefix_concat_iff.mp front with same | directory
  · obtain ⟨sameDirectories, sameFile⟩ := List.append_inj' same rfl
    have samePackage : marshaller.package = other.package := by rw [← placed.join, ← otherPlaced.join, sameDirectories]
    obtain ⟨name, suffix, -, known, called, typeName⟩ := placed.named
    obtain ⟨otherName, otherSuffix, -, otherKnown, otherCalled, otherTypeName⟩ := otherPlaced.named
    have sameCall : marshaller.name = other.name := by
      have texts := congrArg String.toList (List.singleton_inj.mp sameFile)
      rw [String.toList_append, String.toList_append] at texts
      exact String.toList_inj.mp (List.append_cancel_right texts)
    rw [called, otherCalled] at sameCall
    rw [typeName, otherTypeName, samePackage, separable.append_inj known otherKnown sameCall]
  · have file : marshaller.name ++ ".java" ∈ other.directories := directory.subset (by simp [steps])
    have point : '.' ∈ (marshaller.name ++ ".java").toList := by simp [String.toList_append]
    exact absurd point (Name.not_mem_of_isWord (otherPlaced.isWord _ file) (by decide))

section

variable {options : GatherOptions} {tree : FileTree} {sources : List Source} {table : SymbolTable}
  {conventions : Conventions}

theorem place_of_outcome {file : SchemaFile} {symbol : Symbol} {marshaller : Marshaller}
    (made : declarationOutcome table conventions (file, symbol) = .made marshaller) :
    marshaller.package = file.package ∧
      ∃ suffix ∈ [conventions.messageSuffix, conventions.enumSuffix], marshaller.name = symbol.name ++ suffix := by
  cases symbol with
  | enumeration enumeration =>
    cases made
    exact ⟨rfl, conventions.enumSuffix, by simp, rfl⟩
  | message message =>
    simp only [declarationOutcome, messageOutcome] at made
    split at made
    · rename_i result succeeded
      cases made
      obtain ⟨fields, -, finished⟩ := bind_eq_ok_iff.mp succeeded
      cases finished
      exact ⟨rfl, conventions.messageSuffix, by simp, rfl⟩
    · cases made

theorem placed_of_mem (texts : ∀ source ∈ sources, source.IsText)
    (gathered : SymbolTable.gather options tree sources = .ok table)
    (relative : ∀ source ∈ SymbolTable.allSources options sources, ∀ file,
      source.load tree options.resourceRoots = .ok file →
        file.package = options.reservedPackage ∨ file.package.toList.head? ≠ some '.')
    {marshaller : Marshaller} (member : marshaller ∈ (generate table conventions).marshallers) :
    marshaller.Placed conventions := by
  rw [marshallers_eq] at member
  obtain ⟨⟨file, symbol⟩, user, selected⟩ := List.mem_filterMap.mp member
  have made := Outcome.marshaller?_eq_some_iff.mp selected
  obtain ⟨isUser, declared⟩ := mem_userDeclarations_iff.mp user
  obtain ⟨listed, outside⟩ := List.mem_filter.mp isUser
  have wellFormed := SymbolTable.wellFormed_of_gather texts gathered listed
  obtain ⟨package, suffix, known, called⟩ := place_of_outcome made
  obtain ⟨fullName, word⟩ := wellFormed.word declared
  have typeName : symbol.fullName = marshaller.typeName := fullName_of_outcome made
  refine ⟨?_, symbol.name, suffix, word, known, called, by rw [← typeName, fullName, package]⟩
  rw [package]
  refine wellFormed.package.imp_right fun reference => ?_
  -- The package is the one of a source and not the reserved one, so it has no point in front.
  obtain ⟨source, given, loaded, keep, load, rfl⟩ := SymbolTable.origin_of_gather gathered listed
  have plain : loaded.package.toList.head? ≠ some '.' := by
    refine (relative source given loaded load).resolve_left ?_
    simpa [SymbolTable.isReserved, SymbolTable.reservedPackage_of_gather gathered, SchemaFile.restrict] using outside
  rcases Name.isReference_iff.mp reference with path | ⟨path, -, pointed⟩
  · exact path
  · exact absurd (congrArg List.head? pointed) plain

theorem nodup_marshaller_typeNames (texts : ∀ source ∈ sources, source.IsText)
    (gathered : SymbolTable.gather options tree sources = .ok table) :
    ((generate table conventions).marshallers.map Marshaller.typeName).Nodup :=
  (List.nodup_append.mp (nodup_typeNames (SymbolTable.unambiguous_of_gather texts gathered))).1

theorem nodup_marshallers (texts : ∀ source ∈ sources, source.IsText)
    (gathered : SymbolTable.gather options tree sources = .ok table) :
    (generate table conventions).marshallers.Nodup :=
  List.Nodup.of_map Marshaller.typeName (nodup_marshaller_typeNames texts gathered)

theorem eq_of_steps_prefix (texts : ∀ source ∈ sources, source.IsText)
    (gathered : SymbolTable.gather options tree sources = .ok table)
    (relative : ∀ source ∈ SymbolTable.allSources options sources, ∀ file,
      source.load tree options.resourceRoots = .ok file →
        file.package = options.reservedPackage ∨ file.package.toList.head? ≠ some '.')
    (separable : conventions.Separable) {first second : Marshaller}
    (member : first ∈ (generate table conventions).marshallers)
    (otherMember : second ∈ (generate table conventions).marshallers) (front : first.steps <+: second.steps) :
    first = second :=
  List.inj_on_of_nodup_map (nodup_marshaller_typeNames texts gathered) member otherMember
    ((placed_of_mem texts gathered relative member).typeName_eq separable
      (placed_of_mem texts gathered relative otherMember) front)

/-- Sources that are written stay apart and below the output directory. The path of a marshaller walks
the output directory, then the segments of its package, then to a file, and none of these steps leads
back. No two marshallers have the same path, nor does the file of one stand where the path of another
has a directory. -/
theorem generate_paths_apart (texts : ∀ source ∈ sources, source.IsText)
    (gathered : SymbolTable.gather options tree sources = .ok table)
    (relative : ∀ source ∈ SymbolTable.allSources options sources, ∀ file,
      source.load tree options.resourceRoots = .ok file →
        file.package = options.reservedPackage ∨ file.package.toList.head? ≠ some '.')
    (separable : conventions.Separable) (out : String) :
    let marshallers := (generate table conventions).marshallers
    (∀ marshaller ∈ marshallers, ∃ segments : List String,
      marshaller.package = Text.join '.' segments ∧
        marshaller.path out = (segments ++ [marshaller.name ++ ".java"]).foldl Path.push out ∧
        Path.names (marshaller.path out) = Path.names out ++ segments ++ [marshaller.name ++ ".java"] ∧
        (∀ segment ∈ segments, '.' ∉ segment.toList) ∧
        ∀ step ∈ segments ++ [marshaller.name ++ ".java"],
          step ≠ "" ∧ step ≠ "." ∧ step ≠ ".." ∧ '/' ∉ step.toList) ∧
    (marshallers.map (·.path out)).Nodup ∧
    (∀ first ∈ marshallers, ∀ second ∈ marshallers,
      Path.names (first.path out) <+: Path.names (second.path out) → first = second) := by
  intro marshallers
  have placed : ∀ marshaller ∈ marshallers, marshaller.Placed conventions :=
    fun marshaller member => placed_of_mem texts gathered relative member
  have walks : ∀ marshaller ∈ marshallers, Path.names (marshaller.path out) = Path.names out ++ marshaller.steps := by
    intro marshaller member
    rw [Marshaller.path_eq, Path.names_foldl_push out ((placed marshaller member).plain separable)]
  have apart : ∀ first ∈ marshallers, ∀ second ∈ marshallers,
      Path.names (first.path out) <+: Path.names (second.path out) → first = second := by
    intro first member second otherMember front
    rw [walks first member, walks second otherMember, List.prefix_append_right_inj] at front
    exact eq_of_steps_prefix texts gathered relative separable member otherMember front
  refine ⟨?_, ?_, apart⟩
  · intro marshaller member
    refine ⟨marshaller.directories, (placed marshaller member).join.symm, marshaller.path_eq out, ?_, ?_, ?_⟩
    · rw [walks marshaller member, Marshaller.steps, List.append_assoc]
    · exact fun segment listed => Name.not_mem_of_isWord ((placed marshaller member).isWord segment listed) (by decide)
    · intro step listed
      obtain ⟨present, here, above, single⟩ := (placed marshaller member).plain separable step listed
      exact ⟨present, here, above, single⟩
  · refine (nodup_marshallers texts gathered).map_on ?_
    intro first member second otherMember same
    exact apart first member second otherMember (same ▸ List.prefix_rfl)

end

/-- A directory is called as a message, and a message as an enumeration beside it. -/
theorem generate_paths_apart_nested :
    let options : GatherOptions := { reservedPackage := "core", wellKnownText := "package core;" }
    let tree : FileTree := ⟨.directory .empty, []⟩
    let first : Source := .text (.named "a") "package p; message q \x7b \x7d enum E \x7b A = 0; \x7d"
    let second : Source := .text (.named "b") "message E \x7b \x7d package p.q;"
    ({} : Conventions).Separable ∧ ∃ table, SymbolTable.gather options tree [first, second] = .ok table ∧
      (generate table {}).marshallers.map (·.path "out/") =
        ["out/p/qMessageMarshaller.java", "out/p/EEnumMarshaller.java", "out/p/q/EMessageMarshaller.java"] ∧
      ∀ one ∈ (generate table {}).marshallers, ∀ other ∈ (generate table {}).marshallers,
        Path.names (one.path "out/") <+: Path.names (other.path "out/") → one = other := by
  intro options tree first second
  have separable : ({} : Conventions).Separable := ⟨by decide, by decide, Or.inr (by decide)⟩
  have succeeds : (SymbolTable.gather options tree [first, second]).toOption.map
      (fun table => (generate table {}).marshallers.map (·.path "out/")) =
        some ["out/p/qMessageMarshaller.java", "out/p/EEnumMarshaller.java", "out/p/q/EMessageMarshaller.java"] := by
    decide +kernel
  have relative : ∀ source ∈ SymbolTable.allSources options [first, second], ∀ file ∈ (source.load tree []).toOption,
      file.package = "core" ∨ file.package.toList.head? ≠ some '.' := by
    decide +kernel
  simp only [Option.mem_def, toOption_eq_some_iff] at relative
  obtain ⟨table, gathered, paths⟩ := Option.map_eq_some_iff.mp succeeds
  rw [toOption_eq_some_iff] at gathered
  have texts : ∀ source ∈ [first, second], source.IsText := by simp [first, second]
  exact ⟨separable, table, gathered, paths, (generate_paths_apart texts gathered relative separable "out/").2.2⟩

end SchemaMarshal
