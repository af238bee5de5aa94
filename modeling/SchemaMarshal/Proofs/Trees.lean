import Mathlib.Data.List.Infix
import SchemaMarshal.FileTree

/-! What the operations on a file tree change.

A place is the list of names that leads to a node from the root. There are no links, so a path leads to
a place that its text alone decides, as soon as it leads anywhere. Writing a file changes the file at that
place and no other, and making directories changes no file at all, whether or not it succeeds.
-/

set_option autoImplicit false

namespace SchemaMarshal

namespace Node

/-- What stands at a place: a file with its content, or a directory. -/
inductive Kind where
  | file (content : ByteArray)
  | directory

def kind : Node → Kind
  | .file content => .file content
  | .directory _ => .directory

def kindAt? (root : Node) (place : List String) : Option Kind := (root.at? place).map kind

theorem at?_directory_cons (entries : NameMap Node) (name : String) (rest : List String) :
    (directory entries).at? (name :: rest) = (entries.get? name).bind (·.at? rest) := by
  rw [at?]
  cases entries.get? name with
  | none => rfl
  | some node => rfl

theorem at?_append (root : Node) (place rest : List String) :
    root.at? (place ++ rest) = (root.at? place).bind (·.at? rest) := by
  induction place generalizing root with
  | nil => rfl
  | cons name place ih =>
    cases root with
    | file content => rfl
    | directory entries =>
      rw [List.cons_append, at?_directory_cons, at?_directory_cons, Option.bind_assoc]
      exact congrArg _ (funext ih)

theorem kindAt?_nil (root : Node) : root.kindAt? [] = some root.kind := by
  rw [kindAt?, at?]
  rfl

theorem kindAt?_directory_cons (entries : NameMap Node) (name : String) (rest : List String) :
    (directory entries).kindAt? (name :: rest) = (entries.get? name).bind (·.kindAt? rest) := by
  rw [kindAt?, at?_directory_cons, Option.map_bind]
  rfl

theorem kindAt?_file_cons (content : ByteArray) (name : String) (rest : List String) :
    (file content).kindAt? (name :: rest) = none := rfl

theorem kindAt?_eq_directory_iff {root : Node} {place : List String} :
    root.kindAt? place = some .directory ↔ ∃ entries, root.at? place = some (.directory entries) := by
  rw [kindAt?, Option.map_eq_some_iff]
  constructor
  · rintro ⟨node, there, same⟩
    cases node with
    | file content => cases same
    | directory entries => exact ⟨entries, there⟩
  · rintro ⟨entries, there⟩
    exact ⟨_, there, rfl⟩

/-- Only a directory has anything below it. -/
theorem kindAt?_below {root : Node} {place : List String} (closed : root.kindAt? place ≠ some .directory)
    {other : List String} (below : place <+: other) (different : other ≠ place) : root.kindAt? other = none := by
  obtain ⟨rest, rfl⟩ := below
  cases rest with
  | nil => exact absurd (List.append_nil place) different
  | cons name rest =>
    rw [kindAt?, at?_append]
    cases there : root.at? place with
    | none => rfl
    | some node =>
      cases node with
      | file content => rfl
      | directory entries => exact absurd (kindAt?_eq_directory_iff.mpr ⟨entries, there⟩) closed

/-- What is put into a directory shows at its place and below it, and nowhere else. -/
theorem kindAt?_set_concat {root : Node} {front : List String} (above : root.kindAt? front = some .directory)
    (name : String) (content : Node) (other : List String) :
    (root.set (front ++ [name]) content).kindAt? other =
      if front ++ [name] <+: other then content.kindAt? (other.drop (front.length + 1)) else root.kindAt? other := by
  induction front generalizing root other with
  | nil =>
    obtain ⟨entries, same⟩ := kindAt?_eq_directory_iff.mp above
    cases same
    cases other with
    | nil => rfl
    | cons first rest =>
      rw [List.nil_append, set, set, kindAt?_directory_cons, kindAt?_directory_cons, NameMap.get?_insert]
      by_cases here : name = first
      · simp [here]
      · simp [here]
  | cons first front ih =>
    cases root with
    | file bytes => cases above
    | directory entries =>
      rw [kindAt?_directory_cons] at above
      obtain ⟨child, listed, inside⟩ := Option.bind_eq_some_iff.mp above
      rw [List.cons_append, set, listed, Option.getD_some]
      cases other with
      | nil => rfl
      | cons second rest =>
        rw [kindAt?_directory_cons, kindAt?_directory_cons, NameMap.get?_insert]
        by_cases here : first = second
        · subst here
          simp [ih inside, listed]
        · simp [here]

theorem kindAt?_set {root : Node} {place : List String}
    (above : ∀ front name, place = front ++ [name] → root.kindAt? front = some .directory) (content : Node)
    (other : List String) :
    (root.set place content).kindAt? other =
      if place <+: other then content.kindAt? (other.drop place.length) else root.kindAt? other := by
  rcases List.eq_nil_or_concat place with rfl | ⟨front, name, rfl⟩
  · simp [set]
  · rw [List.concat_eq_append] at above ⊢
    rw [kindAt?_set_concat (above front name rfl), List.length_append, List.length_singleton]

theorem above_of_at? {root : Node} {place : List String} {node : Node} (there : root.at? place = some node)
    (front : List String) (name : String) (split : place = front ++ [name]) : root.kindAt? front = some .directory := by
  subst split
  rw [at?_append] at there
  obtain ⟨parent, found, inside⟩ := Option.bind_eq_some_iff.mp there
  cases parent with
  | file content => cases inside
  | directory entries => exact kindAt?_eq_directory_iff.mpr ⟨entries, found⟩

end Node

def Path.advance (place : List String) (step : String) : List String :=
  if step = "." then place else if step = ".." then place.dropLast else place ++ [step]

namespace Node

/-- Every step is taken from a directory, and no name is too long. -/
def Passable (root : Node) : List String → List String → Prop
  | _, [] => True
  | place, step :: rest =>
      root.kindAt? place = some .directory ∧
        (step = "." ∨ step = ".." ∨ step.utf8ByteSize ≤ FileTree.nameLimit) ∧
        root.Passable (Path.advance place step) rest

theorem Passable.mono {root after : Node}
    (kept : ∀ place, root.kindAt? place = some .directory → after.kindAt? place = some .directory)
    {place steps : List String} (passable : root.Passable place steps) : after.Passable place steps := by
  induction steps generalizing place with
  | nil => trivial
  | cons step rest ih => exact ⟨kept place passable.1, passable.2.1, ih passable.2.2⟩

end Node

namespace FileTree

def Target.StandsAt (root : Node) (place : List String) : Target → Prop
  | .found there node => there = place ∧ root.at? place = some node
  | .missing front name => front ++ [name] = place ∧ root.kindAt? front = some .directory ∧ root.at? place = none

/-- One step that does not fail: it leads on, or it ends the walk where nothing stands yet. -/
theorem walk_cons_eq_ok {root : Node} {place : List String} {step : String} {rest : List String} {target : Target}
    (walked : walk root place (step :: rest) = .ok target) :
    root.kindAt? place = some .directory ∧ (step = "." ∨ step = ".." ∨ step.utf8ByteSize ≤ nameLimit) ∧
      (walk root (Path.advance place step) rest = .ok target ∨
        rest = [] ∧ target = .missing place step ∧ Path.advance place step = place ++ [step] ∧
          root.at? (place ++ [step]) = none) := by
  unfold walk at walked
  split at walked
  · cases walked
  · cases walked
  · rename_i entries there
    refine ⟨Node.kindAt?_eq_directory_iff.mpr ⟨entries, there⟩, ?_⟩
    unfold Path.advance
    split at walked
    · rename_i stays
      exact ⟨Or.inl stays, Or.inl (by rwa [if_pos stays])⟩
    · rename_i leaves
      rw [if_neg leaves]
      split at walked
      · rename_i up
        exact ⟨Or.inr (Or.inl up), Or.inl (by rwa [if_pos up])⟩
      · rename_i down
        rw [if_neg down]
        split at walked
        · cases walked
        · rename_i long
          refine ⟨Or.inr (Or.inr (Nat.le_of_not_lt long)), ?_⟩
          split at walked
          · exact Or.inl walked
          · rename_i absent
            cases rest with
            | cons second rest => cases walked
            | nil =>
              cases walked
              refine Or.inr ⟨rfl, rfl, rfl, ?_⟩
              rw [Node.at?_append, there, Option.bind_some, Node.at?_directory_cons, absent]
              rfl

theorem walk_eq_ok {root : Node} {place steps : List String} {target : Target}
    (walked : walk root place steps = .ok target) :
    root.Passable place steps ∧ target.StandsAt root (steps.foldl Path.advance place) := by
  induction steps generalizing place with
  | nil =>
    unfold walk at walked
    split at walked
    · rename_i node there
      cases walked
      exact ⟨trivial, rfl, there⟩
    · cases walked
  | cons step rest ih =>
    obtain ⟨directory, named, onward | ⟨rfl, rfl, down, absent⟩⟩ := walk_cons_eq_ok walked
    · obtain ⟨passable, stands⟩ := ih onward
      exact ⟨⟨directory, named, passable⟩, stands⟩
    · refine ⟨⟨directory, named, trivial⟩, ?_⟩
      rw [List.foldl_cons, List.foldl_nil, down]
      exact ⟨rfl, directory, absent⟩

theorem walk_cons {root : Node} {place : List String} {step : String} (rest : List String)
    (directory : root.kindAt? place = some .directory)
    (named : step = "." ∨ step = ".." ∨ step.utf8ByteSize ≤ nameLimit)
    (present : ∃ node, root.at? (Path.advance place step) = some node) :
    walk root place (step :: rest) = walk root (Path.advance place step) rest := by
  obtain ⟨entries, here⟩ := Node.kindAt?_eq_directory_iff.mp directory
  obtain ⟨node, there⟩ := present
  rw [walk]
  unfold Path.advance at there ⊢
  simp only [here]
  by_cases stays : step = "."
  · rw [if_pos stays, if_pos stays]
  · rw [if_neg stays] at there
    rw [if_neg stays, if_neg stays]
    by_cases up : step = ".."
    · rw [if_pos up, if_pos up]
    · have short : step.utf8ByteSize ≤ nameLimit := (named.resolve_left stays).resolve_left up
      rw [if_neg up, Node.at?_append, here, Option.bind_some, Node.at?_directory_cons] at there
      obtain ⟨entry, listed, -⟩ := Option.bind_eq_some_iff.mp there
      rw [if_neg up, if_neg up, if_neg (Nat.not_lt.mpr short)]
      simp only [listed]

theorem walk_of_passable {root : Node} {place steps : List String} (passable : root.Passable place steps) {node : Node}
    (there : root.at? (steps.foldl Path.advance place) = some node) :
    walk root place steps = .ok (.found (steps.foldl Path.advance place) node) := by
  induction steps generalizing place with
  | nil =>
    rw [List.foldl_nil] at there
    simp only [walk, List.foldl_nil, there]
  | cons step rest ih =>
    obtain ⟨directory, named, passable⟩ := passable
    rw [List.foldl_cons] at there ⊢
    -- Something stands where the step leads: the end of the walk, or what the next step is taken from.
    have present : ∃ node, root.at? (Path.advance place step) = some node := by
      cases rest with
      | nil => exact ⟨node, there⟩
      | cons second rest =>
        obtain ⟨entries, found⟩ := Node.kindAt?_eq_directory_iff.mp passable.1
        exact ⟨_, found⟩
    rw [walk_cons rest directory named present, ih passable there]

/-- The place that a path leads to, if it leads anywhere. -/
def place (tree : FileTree) (path : String) : List String :=
  ((Path.pieces path).filter (· ≠ "")).foldl Path.advance (if Path.isAbsolute path then [] else tree.working)

def kindAt? (tree : FileTree) (place : List String) : Option Node.Kind := tree.root.kindAt? place

def fileAt? (tree : FileTree) (place : List String) : Option ByteArray :=
  match tree.kindAt? place with
  | some (.file content) => some content
  | _ => none

/-- The later tree has all directories of the earlier one. -/
structure Keeps (before after : FileTree) : Prop where
  working : after.working = before.working
  directories : ∀ place, before.kindAt? place = some .directory → after.kindAt? place = some .directory

theorem Keeps.refl (tree : FileTree) : tree.Keeps tree := ⟨rfl, fun _ directory => directory⟩

theorem Keeps.trans {first second third : FileTree} (earlier : first.Keeps second) (later : second.Keeps third) :
    first.Keeps third :=
  ⟨later.working.trans earlier.working, fun place directory => later.directories place (earlier.directories place directory)⟩

theorem Keeps.place_eq {before after : FileTree} (keeps : before.Keeps after) (path : String) :
    after.place path = before.place path := by
  rw [place, place, keeps.working]

theorem target_eq_ok {tree : FileTree} {path : String} {target : Target} (found : tree.target path = .ok target) :
    target.StandsAt tree.root (tree.place path) := by
  unfold FileTree.target at found
  split at found
  · cases found
  · split at found
    · cases found
    · split at found
      · cases found
      · exact (walk_eq_ok found).2

/-- A path that leads somewhere still leads to its place when directories are added. -/
theorem Keeps.target_eq {before after : FileTree} (keeps : before.Keeps after) {path : String} {target : Target}
    (found : before.target path = .ok target) {node : Node} (there : after.root.at? (before.place path) = some node) :
    after.target path = .ok (.found (before.place path) node) := by
  unfold FileTree.target at found ⊢
  split at found
  · cases found
  · rename_i present
    rw [if_neg present]
    split at found
    · cases found
    · rename_i legal
      rw [if_neg legal]
      split at found
      · cases found
      · rename_i short
        rw [if_neg short, keeps.working]
        exact walk_of_passable ((walk_eq_ok found).1.mono keeps.directories) there

section

variable {tree : FileTree} {place : List String}
  (above : ∀ front name, place = front ++ [name] → tree.kindAt? front = some .directory)
  (free : tree.kindAt? place ≠ some .directory)
include above free

/-- A node without entries changes nothing but its own place, if no directory was there. -/
theorem kindAt?_put {node : Node} (leaf : ∀ name rest, node.kindAt? (name :: rest) = none) (other : List String) :
    (tree.put place node).kindAt? other = if other = place then some node.kind else tree.kindAt? other := by
  have changed : (tree.put place node).kindAt? other =
      if place <+: other then node.kindAt? (other.drop place.length) else tree.kindAt? other :=
    Node.kindAt?_set above node other
  by_cases here : other = place
  · subst here
    rw [if_pos rfl]
    simpa [Node.kindAt?_nil] using changed
  · rw [if_neg here]
    by_cases below : place <+: other
    · obtain ⟨rest, rfl⟩ := below
      cases rest with
      | nil => exact absurd (List.append_nil place) here
      | cons name rest =>
        rw [if_pos (List.prefix_append _ _), List.drop_left, leaf] at changed
        exact changed.trans (Node.kindAt?_below free (List.prefix_append _ _) here).symm
    · rwa [if_neg below] at changed

theorem keeps_put {node : Node} (leaf : ∀ name rest, node.kindAt? (name :: rest) = none) :
    tree.Keeps (tree.put place node) where
  working := rfl
  directories := by
    intro other directory
    have different : other ≠ place := by
      rintro rfl
      exact free directory
    rw [kindAt?_put above free leaf, if_neg different, directory]

theorem fileAt?_put_file (content : ByteArray) (other : List String) :
    (tree.put place (.file content)).fileAt? other = if other = place then some content else tree.fileAt? other := by
  rw [fileAt?, kindAt?_put above free (Node.kindAt?_file_cons content)]
  by_cases here : other = place
  · simp [here, Node.kind]
  · simp [here, fileAt?]

end

theorem target_of_write {tree after : FileTree} {path : String} {content : ByteArray}
    (written : tree.write path content = .ok after) :
    ∃ target, tree.target path = .ok target ∧ after = tree.put (tree.place path) (.file content) ∧
      tree.kindAt? (tree.place path) ≠ some .directory ∧
      (∀ front name, tree.place path = front ++ [name] → tree.kindAt? front = some .directory) ∧
      Path.endsInSlash path = false := by
  unfold write at written
  split at written
  · cases written
  · cases written
  · rename_i place old found
    obtain ⟨rfl, there⟩ := target_eq_ok found
    split at written
    · cases written
    · rename_i plain
      cases written
      refine ⟨_, found, rfl, ?_, Node.above_of_at? there, by simpa using plain⟩
      rw [kindAt?, Node.kindAt?, there]
      simp [Node.kind]
  · rename_i front name found
    obtain ⟨same, directory, absent⟩ := target_eq_ok found
    split at written
    · cases written
    · rename_i plain
      cases written
      refine ⟨_, found, by rw [same], ?_, ?_, by simpa using plain⟩
      · rw [kindAt?, Node.kindAt?, absent]
        simp
      · intro otherFront otherName split
        rw [split] at same
        obtain ⟨rfl, -⟩ := List.append_inj' same rfl
        exact directory

/-- Writing changes the file at the place of the path, and no other. -/
theorem write_eq_ok {tree after : FileTree} {path : String} {content : ByteArray}
    (written : tree.write path content = .ok after) :
    tree.Keeps after ∧
      ∀ place, after.fileAt? place = if place = tree.place path then some content else tree.fileAt? place := by
  obtain ⟨_, -, rfl, free, above, -⟩ := target_of_write written
  exact ⟨keeps_put above free (Node.kindAt?_file_cons content), fileAt?_put_file above free content⟩

/-- What is at the place of a path that was written can be read there, also after more was written. -/
theorem read_of_write {tree after later : FileTree} {path : String} {content bytes : ByteArray}
    (written : tree.write path content = .ok after) (keeps : tree.Keeps later)
    (there : later.fileAt? (tree.place path) = some bytes) : later.read path = .ok bytes := by
  obtain ⟨target, found, -, -, -, plain⟩ := target_of_write written
  have node : later.root.at? (tree.place path) = some (.file bytes) := by
    unfold fileAt? kindAt? Node.kindAt? at there
    cases stands : later.root.at? (tree.place path) with
    | none => simp [stands] at there
    | some node =>
      cases node with
      | file content => simpa [stands, Node.kind] using there
      | directory entries => simp [stands, Node.kind] at there
  unfold read
  simp only [keeps.target_eq found node, plain, Bool.false_eq_true, if_false]

/-- The later tree has the same files, and all directories of the earlier one. -/
structure Grows (before after : FileTree) : Prop extends Keeps before after where
  files : ∀ place, after.fileAt? place = before.fileAt? place

theorem Grows.refl (tree : FileTree) : tree.Grows tree := ⟨.refl tree, fun _ => rfl⟩

theorem Grows.trans {first second third : FileTree} (earlier : first.Grows second) (later : second.Grows third) :
    first.Grows third :=
  ⟨earlier.toKeeps.trans later.toKeeps, fun place => (later.files place).trans (earlier.files place)⟩

theorem grows_of_makeDirectory {tree after : FileTree} {path : String} (made : tree.makeDirectory path = .ok after) :
    tree.Grows after := by
  unfold makeDirectory at made
  split at made
  · cases made
  · cases made
  · rename_i front name found
    cases made
    obtain ⟨same, directory, absent⟩ := target_eq_ok found
    have free : tree.kindAt? (front ++ [name]) = none := by
      rw [kindAt?, Node.kindAt?, same, absent]
      rfl
    have above : ∀ other last, front ++ [name] = other ++ [last] → tree.kindAt? other = some .directory := by
      intro other last split
      obtain ⟨rfl, -⟩ := List.append_inj' split rfl
      exact directory
    have leaf : ∀ first rest, (Node.directory .empty).kindAt? (first :: rest) = none := fun _ _ => rfl
    have closed : tree.kindAt? (front ++ [name]) ≠ some .directory := by simp [free]
    refine ⟨keeps_put above closed leaf, fun place => ?_⟩
    rw [fileAt?, kindAt?_put above closed leaf]
    by_cases here : place = front ++ [name]
    · simp [here, fileAt?, free, Node.kind]
    · simp [here, fileAt?]

theorem grows_of_ensureDirectory {tree after : FileTree} {path : String}
    (made : tree.ensureDirectory path = .ok after) : tree.Grows after := by
  unfold ensureDirectory at made
  split at made
  · rename_i fresh
    cases made
    exact grows_of_makeDirectory fresh
  · split at made
    · cases made
      exact .refl tree
    · cases made

theorem grows_ofResult {tree : FileTree} {result : Except FileError FileTree}
    (grows : ∀ after, result = .ok after → tree.Grows after) : tree.Grows (Attempt.ofResult tree result).tree := by
  cases result with
  | ok after => exact grows after rfl
  | error error => exact .refl tree

/-- Making directories touches no file, and what was made stays if it fails later on. -/
theorem grows_makeAncestors (tree : FileTree) (paths : List String) : tree.Grows (tree.makeAncestors paths).tree := by
  induction paths with
  | nil => exact .refl tree
  | cons path above ih =>
    unfold makeAncestors
    split
    · dsimp only
      split
      · exact ih.trans (grows_ofResult fun _ made => grows_of_ensureDirectory made)
      · exact ih
    · exact grows_ofResult fun _ made => grows_of_ensureDirectory made

end FileTree

end SchemaMarshal
