import SchemaMarshal.Proofs.OutputPaths
import SchemaMarshal.Proofs.Trees

/-! Writing a report to a tree.

`Lawful` says what is assumed of a file system, and the trees that emission runs on satisfy it. Each source
is written at a place below the output directory, and no two have the same place. So a step changes one
file, no later step changes it again, and a failure leaves the files of the steps before it.
-/

set_option autoImplicit false

namespace SchemaMarshal

namespace Path

theorem isAbsolute_push (base : String) {part : String} (plain : Plain part) :
    isAbsolute (push base part) = isAbsolute base := by
  have relative : isAbsolute part = false := by
    rw [isAbsolute, decide_eq_false_iff_not]
    exact fun head => plain.single (List.mem_of_head? head)
  rw [push, relative, if_neg Bool.false_ne_true]
  by_cases empty : base = ""
  · subst empty
    simpa [isAbsolute] using relative
  · have letters : base.toList ≠ [] := by simpa using empty
    obtain ⟨first, rest, same⟩ := List.exists_cons_of_ne_nil letters
    split <;> simp [isAbsolute, String.toList_append, same]

theorem isAbsolute_foldl_push (base : String) {parts : List String} (plain : ∀ part ∈ parts, Plain part) :
    isAbsolute (parts.foldl push base) = isAbsolute base := by
  induction parts generalizing base with
  | nil => rfl
  | cons part parts ih =>
    rw [List.forall_mem_cons] at plain
    rw [List.foldl_cons, ih (push base part) plain.2, isAbsolute_push base plain.1]

theorem foldl_advance_of_plain (place : List String) {parts : List String} (plain : ∀ part ∈ parts, Plain part) :
    parts.foldl advance place = place ++ parts := by
  induction parts generalizing place with
  | nil => simp
  | cons part parts ih =>
    rw [List.forall_mem_cons] at plain
    have down : advance place part = place ++ [part] := (if_neg plain.1.here).trans (if_neg plain.1.above)
    rw [List.foldl_cons, down, ih _ plain.2, List.append_assoc, List.singleton_append]

end Path

namespace FileTree

-- A single point leads nowhere, so the names of a path decide its place.
theorem place_eq (tree : FileTree) (path : String) :
    tree.place path = (Path.names path).foldl Path.advance (if Path.isAbsolute path then [] else tree.working) := by
  rw [place, Path.names]
  generalize (if Path.isAbsolute path then [] else tree.working) = start
  induction Path.pieces path generalizing start with
  | nil => rfl
  | cons piece pieces ih =>
    by_cases empty : piece = ""
    · simpa [empty] using ih start
    · by_cases stays : piece = "."
      · have same : Path.advance start piece = start := if_pos stays
        rw [List.filter_cons_of_pos (by simpa using empty), List.filter_cons_of_neg (by simp [stays]),
          List.foldl_cons, same]
        exact ih start
      · rw [List.filter_cons_of_pos (by simpa using empty), List.filter_cons_of_pos (by simp [empty, stays]),
          List.foldl_cons, List.foldl_cons]
        exact ih _

theorem place_foldl_push (tree : FileTree) (out : String) {parts : List String}
    (plain : ∀ part ∈ parts, Path.Plain part) : tree.place (parts.foldl Path.push out) = tree.place out ++ parts := by
  rw [place_eq, place_eq, Path.names_foldl_push out plain, Path.isAbsolute_foldl_push out plain, List.foldl_append,
    Path.foldl_advance_of_plain _ plain]

end FileTree

namespace FileSystem

/-- What can be seen of a tree: its files by their places, and that a later tree has the directories of an
earlier one. -/
structure View (Tree Error Place : Type) where
  place : Tree → String → Place
  fileAt? : Tree → Place → Option ByteArray
  read : Tree → String → Except Error ByteArray
  Keeps : Tree → Tree → Prop

variable {Tree Error Place : Type}

/-- The later tree has the same files, and all directories of the earlier one. -/
structure View.Grows (view : View Tree Error Place) (before after : Tree) : Prop where
  keeps : view.Keeps before after
  files : ∀ place, view.fileAt? after place = view.fileAt? before place

/-- The later tree has the content in the file of the path, and no other file is changed. -/
structure View.Writes (view : View Tree Error Place) (before : Tree) (path : String) (content : ByteArray)
    (after : Tree) : Prop where
  keeps : view.Keeps before after
  held : view.fileAt? after (view.place before path) = some content
  others : ∀ place, place ≠ view.place before path → view.fileAt? after place = view.fileAt? before place

/-- Making directories touches no file, and writing touches the file of its path or, if it fails, none. Paths
that go down from one directory by different steps lead to different files, and what was written to a path
can be read there for as long as its file has it. -/
structure Lawful (system : FileSystem Tree Error) (view : View Tree Error Place) : Prop where
  keeps_refl : ∀ tree, view.Keeps tree tree
  keeps_trans : ∀ {first second third}, view.Keeps first second → view.Keeps second third → view.Keeps first third
  place_eq : ∀ {before after}, view.Keeps before after → ∀ path, view.place after path = view.place before path
  place_inj : ∀ tree out {first second : List String}, (∀ step ∈ first, Path.Plain step) →
    (∀ step ∈ second, Path.Plain step) →
    view.place tree (first.foldl Path.push out) = view.place tree (second.foldl Path.push out) → first = second
  grows_makeDirectories : ∀ tree path, view.Grows tree (system.makeDirectories tree path).1
  write_ok : ∀ {tree path content after}, system.write tree path content = (after, none) →
    view.Writes tree path content after
  write_error : ∀ {tree path content after error}, system.write tree path content = (after, some error) →
    view.Grows tree after
  read_eq : ∀ {tree path content after later bytes}, system.write tree path content = (after, none) →
    view.Keeps tree later → view.fileAt? later (view.place tree path) = some bytes → view.read later path = .ok bytes

/-- A tree that differs from an earlier one in the files of some marshallers alone, each of which holds
the source of its own marshaller. -/
structure Emitted (view : View Tree Error Place) (conventions : Conventions) (out : String) (start : Tree)
    (done : List Marshaller) (tree : Tree) : Prop where
  keeps : view.Keeps start tree
  held : ∀ marshaller ∈ done,
    view.fileAt? tree (view.place start (marshaller.path out)) = some (Java.render conventions marshaller).toUTF8
  read : ∀ marshaller ∈ done, view.read tree (marshaller.path out) = .ok (Java.render conventions marshaller).toUTF8
  others : ∀ place, (∀ marshaller ∈ done, place ≠ view.place start (marshaller.path out)) →
    view.fileAt? tree place = view.fileAt? start place

/-- If emission ends, it has written all sources in order. If it fails, it has written those before the
failing one, and the error is about the path of that one or the directory above it. -/
structure Emission.Exact (view : View Tree Error Place) (conventions : Conventions) (out : String) (start : Tree)
    (marshallers : List Marshaller) (emission : Emission Tree Error) : Prop where
  finished : emission.error = none →
    emission.written = marshallers.map (·.path out) ∧ Emitted view conventions out start marshallers emission.tree
  failed : ∀ error, emission.error = some error → ∃ done failing later,
    marshallers = done ++ failing :: later ∧ emission.written = done.map (·.path out) ∧
      (error.path = failing.path out ∨ Path.parent? (failing.path out) = some error.path) ∧
      Emitted view conventions out start done emission.tree

section

variable {system : FileSystem Tree Error} {view : View Tree Error Place} (lawful : system.Lawful view)
  {conventions : Conventions} {out : String}
include lawful

theorem Lawful.grows_makeParent (tree : Tree) (path : String) : view.Grows tree (system.makeParent tree path).1 := by
  unfold makeParent
  cases Path.parent? path with
  | none => exact ⟨lawful.keeps_refl tree, fun _ => rfl⟩
  | some directory => exact lawful.grows_makeDirectories tree directory

/-- The directory above is made first, which touches no file. Its failure ends the step. -/
theorem Lawful.emitOne_cases (conventions : Conventions) (out : String) (tree : Tree) (marshaller : Marshaller) :
    ∃ middle, view.Grows tree middle ∧
      ((∃ directory cause, Path.parent? (marshaller.path out) = some directory ∧
          system.emitOne conventions out tree marshaller = (middle, some ⟨directory, cause⟩)) ∨
        system.emitOne conventions out tree marshaller = EmitError.about (marshaller.path out)
          (system.write middle (marshaller.path out) (Java.render conventions marshaller).toUTF8)) := by
  refine ⟨(system.makeParent tree (marshaller.path out)).1, lawful.grows_makeParent tree _, ?_⟩
  unfold emitOne
  dsimp only
  -- What is written does not matter here, and must not be evaluated where both sides are compared.
  generalize (Java.render conventions marshaller).toUTF8 = content
  cases made : system.makeParent tree (marshaller.path out) with
  | mk middle outcome =>
    cases outcome with
    | none => exact Or.inr rfl
    | some error =>
      refine Or.inl ⟨error.path, error.cause, ?_, rfl⟩
      unfold makeParent at made
      cases above : Path.parent? (marshaller.path out) with
      | none => simp [above] at made
      | some directory =>
        simp only [above, EmitError.about, Prod.mk.injEq, Option.map_eq_some_iff] at made
        obtain ⟨-, cause, -, rfl⟩ := made
        rfl

theorem Lawful.write_of_emitOne {tree after : Tree} {marshaller : Marshaller}
    (emitted : system.emitOne conventions out tree marshaller = (after, none)) :
    ∃ middle, view.Grows tree middle ∧
      system.write middle (marshaller.path out) (Java.render conventions marshaller).toUTF8 = (after, none) := by
  obtain ⟨middle, grows, ⟨directory, cause, -, stopped⟩ | tried⟩ := lawful.emitOne_cases conventions out tree marshaller
  · cases stopped.symm.trans emitted
  · refine ⟨middle, grows, ?_⟩
    rw [tried, EmitError.about, Prod.mk.injEq, Option.map_eq_none_iff] at emitted
    exact Prod.ext emitted.1 emitted.2

/-- A source that was not written: no file was touched, and the error is about its path or the directory above. -/
theorem Lawful.grows_of_emitOne {tree after : Tree} {marshaller : Marshaller} {error : EmitError Error}
    (failed : system.emitOne conventions out tree marshaller = (after, some error)) :
    view.Grows tree after ∧
      (error.path = marshaller.path out ∨ Path.parent? (marshaller.path out) = some error.path) := by
  obtain ⟨middle, grows, ⟨directory, cause, above, stopped⟩ | tried⟩ :=
    lawful.emitOne_cases conventions out tree marshaller
  · cases stopped.symm.trans failed
    exact ⟨grows, Or.inr above⟩
  · rw [tried, EmitError.about, Prod.mk.injEq, Option.map_eq_some_iff] at failed
    obtain ⟨same, cause, refused, rfl⟩ := failed
    have unchanged : view.Grows middle after := lawful.write_error (Prod.ext same refused)
    exact ⟨⟨lawful.keeps_trans grows.keeps unchanged.keeps, fun place => (unchanged.files place).trans (grows.files place)⟩,
      Or.inl rfl⟩

omit lawful in
theorem View.Grows.emitted {start after : Tree} (grows : view.Grows start after) :
    Emitted view conventions out start [] after where
  keeps := grows.keeps
  held := by simp
  read := by simp
  others := fun place _ => grows.files place

theorem Emitted.cons {start after tree : Tree} {marshaller : Marshaller} {done : List Marshaller}
    (written : system.emitOne conventions out start marshaller = (after, none))
    (emitted : Emitted view conventions out after done tree)
    (fresh : ∀ other ∈ done, view.place start (marshaller.path out) ≠ view.place start (other.path out)) :
    Emitted view conventions out start (marshaller :: done) tree := by
  obtain ⟨middle, grows, wrote⟩ := lawful.write_of_emitOne written
  have writes := lawful.write_ok wrote
  have startKeeps : view.Keeps start after := lawful.keeps_trans grows.keeps writes.keeps
  have middlePlace : ∀ path, view.place middle path = view.place start path := lawful.place_eq grows.keeps
  have samePlace : ∀ path, view.place after path = view.place start path := lawful.place_eq startKeeps
  have held : view.fileAt? tree (view.place middle (marshaller.path out)) =
      some (Java.render conventions marshaller).toUTF8 := by
    rw [emitted.others _ fun other member => by rw [samePlace, middlePlace]; exact fresh other member, writes.held]
  refine ⟨lawful.keeps_trans startKeeps emitted.keeps, ?_, ?_, fun place outside => ?_⟩
  · rw [List.forall_mem_cons]
    refine ⟨by rwa [← middlePlace], fun other member => ?_⟩
    rw [← samePlace]
    exact emitted.held other member
  · rw [List.forall_mem_cons]
    exact ⟨lawful.read_eq wrote (lawful.keeps_trans writes.keeps emitted.keeps) held, emitted.read⟩
  · rw [List.forall_mem_cons] at outside
    rw [emitted.others place fun other member => by rw [samePlace]; exact outside.2 other member,
      writes.others place (by rw [middlePlace]; exact outside.1), grows.files]

/-- Writing goes through the marshallers in order, up to the end or to the first failure. -/
theorem Lawful.emitAll_exact {start : Tree} {marshallers : List Marshaller}
    (distinct : (marshallers.map fun marshaller => view.place start (marshaller.path out)).Nodup) :
    (system.emitAll conventions out start marshallers).Exact view conventions out start marshallers := by
  induction marshallers generalizing start with
  | nil =>
    have grows : view.Grows start start := ⟨lawful.keeps_refl start, fun _ => rfl⟩
    exact ⟨fun _ => ⟨rfl, grows.emitted⟩, fun error failed => by cases failed⟩
  | cons marshaller rest ih =>
    rw [emitAll]
    cases step : system.emitOne conventions out start marshaller with
    | mk after outcome =>
      cases outcome with
      | some error =>
        obtain ⟨grows, about⟩ := lawful.grows_of_emitOne step
        refine ⟨fun finished => ?_, fun other failed => ?_⟩
        · cases finished
        · cases failed
          exact ⟨[], marshaller, rest, rfl, rfl, about, grows.emitted⟩
      | none =>
        obtain ⟨middle, grows, wrote⟩ := lawful.write_of_emitOne step
        have keeps : view.Keeps start after := lawful.keeps_trans grows.keeps (lawful.write_ok wrote).keeps
        rw [List.map_cons, List.nodup_cons, List.mem_map] at distinct
        have fresh : ∀ other ∈ rest, view.place start (marshaller.path out) ≠ view.place start (other.path out) :=
          fun other member same => distinct.1 ⟨other, member, same.symm⟩
        have later : (rest.map fun other => view.place after (other.path out)).Nodup := by
          simpa only [lawful.place_eq keeps] using distinct.2
        obtain ⟨finished, failed⟩ := ih later
        refine ⟨fun ended => ?_, fun error stopped => ?_⟩
        · obtain ⟨written, emitted⟩ := finished ended
          exact ⟨congrArg _ written, emitted.cons lawful step fresh⟩
        · obtain ⟨done, failing, left, split, written, about, emitted⟩ := failed error stopped
          refine ⟨marshaller :: done, failing, left, by rw [split, List.cons_append], congrArg _ written, about,
            emitted.cons lawful step fun other member => fresh other ?_⟩
          rw [split]
          exact List.mem_append_left _ member

theorem Lawful.nodup_places {options : GatherOptions} {tree : FileTree} {sources : List Source} {table : SymbolTable}
    (texts : ∀ source ∈ sources, source.IsText)
    (gathered : SymbolTable.gather options tree sources = .ok table)
    (relative : ∀ source ∈ SymbolTable.allSources options sources, ∀ file,
      source.load tree options.resourceRoots = .ok file →
        file.package = options.reservedPackage ∨ file.package.toList.head? ≠ some '.')
    (separable : conventions.Separable) (out : String) (start : Tree) :
    ((generate table conventions).marshallers.map fun marshaller => view.place start (marshaller.path out)).Nodup := by
  refine (nodup_marshallers texts gathered).map_on ?_
  intro first member second otherMember same
  have plain {marshaller : Marshaller} (listed : marshaller ∈ (generate table conventions).marshallers) :=
    (placed_of_mem texts gathered relative listed).plain separable
  rw [Marshaller.path_eq, Marshaller.path_eq] at same
  have sameSteps := lawful.place_inj start out (plain member) (plain otherMember) same
  exact eq_of_steps_prefix texts gathered relative separable member otherMember (sameSteps ▸ List.prefix_rfl)

end

end FileSystem

namespace FileTree

def view : FileSystem.View FileTree FileError (List String) := ⟨place, fileAt?, read, Keeps⟩

theorem write_of_system {tree after : FileTree} {path : String} {content : ByteArray}
    (written : system.write tree path content = (after, none)) : tree.write path content = .ok after := by
  cases outcome : tree.write path content with
  | ok written => simp_all [system, Attempt.ofResult]
  | error cause => simp_all [system, Attempt.ofResult]

theorem lawful : system.Lawful view where
  keeps_refl := .refl
  keeps_trans := .trans
  place_eq := Keeps.place_eq
  place_inj := by
    intro tree out first second plain otherPlain same
    simp only [view, place_foldl_push tree out plain, place_foldl_push tree out otherPlain] at same
    exact List.append_cancel_left same
  grows_makeDirectories := by
    intro tree path
    have grows := tree.grows_makeAncestors (Path.ancestors path)
    exact ⟨grows.toKeeps, grows.files⟩
  write_ok := by
    intro tree path content after written
    obtain ⟨keeps, files⟩ := write_eq_ok (write_of_system written)
    exact ⟨keeps, (files _).trans (if_pos rfl), fun place other => (files place).trans (if_neg other)⟩
  write_error := by
    intro tree path content after error failed
    cases outcome : tree.write path content with
    | ok written => simp [system, outcome, Attempt.ofResult] at failed
    | error cause =>
      simp only [system, outcome, Attempt.ofResult, Prod.mk.injEq] at failed
      obtain ⟨rfl, -⟩ := failed
      exact ⟨.refl _, fun _ => rfl⟩
  read_eq := by
    intro tree path content after later bytes written keeps held
    exact read_of_write (write_of_system written) keeps held

end FileTree

/-- Emission writes every source of a report to its own file and touches no other file, on every file
system with the assumed laws, and on trees without an assumption. -/
theorem emit_exact {options : GatherOptions} {tree : FileTree} {sources : List Source} {table : SymbolTable}
    {conventions : Conventions} (texts : ∀ source ∈ sources, source.IsText)
    (gathered : SymbolTable.gather options tree sources = .ok table)
    (relative : ∀ source ∈ SymbolTable.allSources options sources, ∀ file,
      source.load tree options.resourceRoots = .ok file →
        file.package = options.reservedPackage ∨ file.package.toList.head? ≠ some '.')
    (separable : conventions.Separable) (out : String) :
    let report := generate table conventions
    (∀ {Tree Error Place : Type} (system : FileSystem Tree Error) (view : FileSystem.View Tree Error Place),
      system.Lawful view → ∀ start,
        (system.emit conventions out start report).Exact view conventions out start report.marshallers) ∧
    ∀ start, (emit conventions out start report).Exact FileTree.view conventions out start report.marshallers := by
  intro report
  have exact_of_lawful {Tree Error Place : Type} (system : FileSystem Tree Error)
      (view : FileSystem.View Tree Error Place) (lawful : system.Lawful view) (start : Tree) :
      (system.emit conventions out start report).Exact view conventions out start report.marshallers :=
    lawful.emitAll_exact (lawful.nodup_places texts gathered relative separable out start)
  exact ⟨exact_of_lawful, exact_of_lawful FileTree.system FileTree.view FileTree.lawful⟩

/-- A file stands where the last source needs a directory, and an old source where the first one goes. -/
theorem emit_exact_obstructed :
    let options : GatherOptions := { reservedPackage := "core", wellKnownText := "package core;" }
    let tree : FileTree := ⟨.directory .empty, []⟩
    let first : Source := .text (.named "a") "package p; message q \x7b \x7d enum E \x7b A = 0; \x7d"
    let second : Source := .text (.named "b") "message E \x7b \x7d package p.q;"
    let package : Node := .directory ⟨[("q", .file "kept".toUTF8), ("qMessageMarshaller.java", .file "old".toUTF8)]⟩
    let start : FileTree := ⟨.directory ⟨[("out", .directory ⟨[("p", package)]⟩)]⟩, []⟩
    ∃ table, SymbolTable.gather options tree [first, second] = .ok table ∧
      let report := generate table {}
      let emission := emit {} "out" start report
      emission.error = some ⟨"out/p/q", .alreadyExists⟩ ∧
        emission.written = ["out/p/qMessageMarshaller.java", "out/p/EEnumMarshaller.java"] ∧
        ∃ done failing later, report.marshallers = done ++ failing :: later ∧
          emission.written = done.map (·.path "out") ∧
          ("out/p/q" = failing.path "out" ∨ Path.parent? (failing.path "out") = some "out/p/q") ∧
          FileSystem.Emitted FileTree.view {} "out" start done emission.tree := by
  intro options tree first second package start
  have separable : ({} : Conventions).Separable := ⟨by decide, by decide, Or.inr (by decide)⟩
  have stops : (SymbolTable.gather options tree [first, second]).toOption.map
      (fun table =>
        let emission := emit {} "out" start (generate table {})
        (emission.error, emission.written)) =
      some (some ⟨"out/p/q", .alreadyExists⟩, ["out/p/qMessageMarshaller.java", "out/p/EEnumMarshaller.java"]) := by
    decide +kernel
  have relative : ∀ source ∈ SymbolTable.allSources options [first, second], ∀ file ∈ (source.load tree []).toOption,
      file.package = "core" ∨ file.package.toList.head? ≠ some '.' := by
    decide +kernel
  simp only [Option.mem_def, toOption_eq_some_iff] at relative
  obtain ⟨table, gathered, answer⟩ := Option.map_eq_some_iff.mp stops
  obtain ⟨failed, written⟩ := Prod.mk.inj answer
  rw [toOption_eq_some_iff] at gathered
  have texts : ∀ source ∈ [first, second], source.IsText := by simp [first, second]
  exact ⟨table, gathered, failed, written, ((emit_exact texts gathered relative separable "out").2 start).failed _ failed⟩

end SchemaMarshal
