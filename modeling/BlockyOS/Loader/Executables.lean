import BlockyOS.Foundation.DepthFirst
import BlockyOS.Foundation.Runs
import BlockyOS.HostTool.Raw

/-!
# Executables and their imports

`LoadBinary` of `eload.c` loads an image, looks every library it imports up in
the tree of the image that asked for it, and loads what it does not find there.
An image is modelled by what the linking sees of it: the libraries it imports,
in order, and the symbols it exports.
-/

namespace BlockyOS.Loader

open BlockyOS.Foundation
open BlockyOS.HostTool (Fault)

/-! ## Files and images -/

abbrev Path := List Char

def isSeparator (c : Char) : Bool := c = '\\' || c = '/'

def dirName (file : Path) : Path := (file.reverse.dropWhile fun c => !isSeparator c).reverse

/--
The name an image is filed under: what follows the last separator, which the
search for it does not look for in the first place of the path.
-/
def fileName (file : Path) : Path :=
  if file.tail.any isSeparator then (file.reverse.takeWhile fun c => !isSeparator c).reverse
  else file

inductive Symbol where
  | ordinal (n : Nat)
  | name (s : List Char)
  deriving DecidableEq, Repr

structure Import where
  libName : List Char
  symbols : List Symbol
  deriving DecidableEq, Repr

structure Image where
  imports : List Import
  exports : List Symbol
  deriving DecidableEq, Repr

def fullPath (file : Path) (imp : Import) : Path := dirName file ++ imp.libName

/-! ## Loaded images -/

structure Instance where
  file : Path
  base : Nat
  deriving DecidableEq, Repr

/-- `LoadedPeExecutable`. -/
inductive LoadedPe where
  | mk (image : Instance) (dependencies : List LoadedPe)

structure Root where
  image : Option Instance
  dependencies : List LoadedPe

def stub : Root := ⟨none, []⟩

/-- `Root` with a dependency more in the last place of its array. -/
def Root.withDependency (root : Root) (node : LoadedPe) : Root :=
  { root with dependencies := root.dependencies ++ [node] }

namespace LoadedPe

def image : LoadedPe → Instance
  | .mk image _ => image

def dependencies : LoadedPe → List LoadedPe
  | .mk _ dependencies => dependencies

def root (this : LoadedPe) : Root := ⟨some this.image, this.dependencies⟩

def withDependency (this node : LoadedPe) : LoadedPe :=
  .mk this.image (this.dependencies ++ [node])

end LoadedPe

/-! ## The search for a library -/

/-- The places of the arrays `Binaries` and `Counter`. -/
def searchDepth : Nat := 32

mutual

/--
The loop of `SearchBinary` below a node.  Its arrays hold the path to the current
node, and writing past their end is a fault.
-/
def searchNode (binary : List Char) (depth : Nat) : LoadedPe → Except Fault (Option Instance)
  | .mk image dependencies =>
      if fileName image.file = binary then .ok (some image)
      else searchDependencies binary (depth + 1) dependencies

def searchDependencies (binary : List Char) (depth : Nat) :
    List LoadedPe → Except Fault (Option Instance)
  | [] => .ok none
  | dependency :: rest =>
      if searchDepth ≤ depth then .error .outOfBounds
      else do
        let found ← searchNode binary depth dependency
        if found.isSome then .ok found else searchDependencies binary depth rest

end

/-- `SearchBinary`: the stub has no name, and no library has the name it reads there. -/
def searchBinary (root : Root) (binary : List Char) : Except Fault (Option Instance) :=
  if root.image.map (fun i => fileName i.file) = some binary then .ok root.image
  else searchDependencies binary 1 root.dependencies

/-! ## Loading -/

structure Link where
  importer : Path
  imp : Import
  base : Nat
  deriving DecidableEq, Repr

/-- What a load leaves behind outside the tree. -/
structure State where
  allocated : Nat
  links : List Link
  deriving DecidableEq, Repr

abbrev Drive := Path → Option Image

/-- `ResolveExport` finds every symbol of the import. -/
def resolves (drive : Drive) (imp : Import) (lib : Instance) : Bool :=
  imp.symbols.all fun s => ((drive lib.file).elim [] Image.exports).contains s

/-- What `LoadBinary` leaves in the tree, and whether it returns it. -/
structure Loaded where
  node : Option LoadedPe
  complete : Bool

def Loaded.result (loaded : Loaded) : Option Instance :=
  if loaded.complete then loaded.node.map LoadedPe.image else none

/--
The library an import is resolved against: one found below `root`, where `this` is
the node of the image and the last dependency, or else one that is loaded under it.
-/
def findLibrary (load : Path → Root → State → Except Fault (Loaded × State)) (file : Path)
    (root : Root) (imp : Import) (this : LoadedPe) (s : State) :
    Except Fault (Option Instance × LoadedPe × State) := do
  let found ← searchBinary (root.withDependency this) imp.libName
  if found.isSome then .ok (found, this, s)
  else (load (fullPath file imp) this.root s).map fun (loaded, s) =>
    (loaded.result, loaded.node.elim this this.withDependency, s)

/-- The loop over the imports of `file`, `load` standing for the recursive call. -/
def loadImports (drive : Drive) (load : Path → Root → State → Except Fault (Loaded × State))
    (file : Path) (root : Root) :
    List Import → LoadedPe → State → Except Fault (Bool × LoadedPe × State)
  | [], this, s => .ok (true, this, s)
  | imp :: rest, this, s => do
      let (lib, this, s) ← findLibrary load file root imp this s
      lib.elim (.ok (false, this, s)) fun lib =>
        if resolves drive imp lib then
          loadImports drive load file root rest this
            { s with links := s.links ++ [⟨file, imp, lib.base⟩] }
        else .ok (false, this, s)

/-- The largest number of dependencies a `UINT16` counts. -/
def maxDependencies : Nat := 65535

/--
`LoadBinary`.  The caller puts the node in its place of the tree.  A count that wraps to
zero makes that the place in front of the array.
-/
def loadBinary (drive : Drive) : Nat → Path → Root → State → Except Fault (Loaded × State)
  | 0, _, _, _ => .error .hang
  | fuel + 1, file, root, s =>
      (drive file).elim (.ok (⟨none, false⟩, s)) fun image =>
        if maxDependencies ≤ root.dependencies.length then .error .outOfBounds
        else
          (loadImports drive (loadBinary drive fuel) file root image.imports
            (.mk ⟨file, s.allocated⟩ []) { s with allocated := s.allocated + 1 }).map
              fun (complete, this, s) => (⟨some this, complete⟩, s)

/-- `LoadExecutable`. -/
def loadExecutable (drive : Drive) (fuel : Nat) (file : Path) : Except Fault (Loaded × State) :=
  loadBinary drive fuel file stub ⟨0, []⟩

/-! ## The tree as a log -/

mutual

/-- The images of a tree in the order of the search, the node itself at `depth`. -/
def instances (depth : Nat) : LoadedPe → List (Visit Instance)
  | .mk image dependencies => ⟨image, depth⟩ :: instancesBelow (depth + 1) dependencies

def instancesBelow (depth : Nat) : List LoadedPe → List (Visit Instance)
  | [] => []
  | dependency :: rest => instances depth dependency ++ instancesBelow depth rest

end

def Root.instances (depth : Nat) (root : Root) : List (Visit Instance) :=
  root.image.toList.map (fun i => ⟨i, depth⟩) ++ instancesBelow (depth + 1) root.dependencies

theorem instancesBelow_append (depth : Nat) (nodes : List LoadedPe) (node : LoadedPe) :
    instancesBelow depth (nodes ++ [node]) =
      instancesBelow depth nodes ++ instances depth node := by
  induction nodes with
  | nil => exact (List.append_nil _)
  | cons first rest ih =>
      rw [List.cons_append, instancesBelow, instancesBelow, ih, List.append_assoc]

@[simp] theorem instances_stub (depth : Nat) : stub.instances depth = [] := rfl

@[simp] theorem instances_leaf (depth : Nat) (i : Instance) :
    instances depth (.mk i []) = [⟨i, depth⟩] := by
  rw [instances, instancesBelow]

theorem Root.instances_withDependency (depth : Nat) (root : Root) (node : LoadedPe) :
    (root.withDependency node).instances depth =
      root.instances depth ++ Loader.instances (depth + 1) node := by
  rw [Root.instances, Root.instances, Root.withDependency, instancesBelow_append,
    List.append_assoc]

theorem LoadedPe.instances_root (depth : Nat) (this : LoadedPe) :
    this.root.instances depth = instances depth this := by
  obtain ⟨image, dependencies⟩ := this
  rw [instances]
  rfl

theorem LoadedPe.instances_withDependency (depth : Nat) (this node : LoadedPe) :
    instances depth (this.withDependency node) =
      instances depth this ++ instances (depth + 1) node := by
  obtain ⟨image, dependencies⟩ := this
  rw [LoadedPe.withDependency, instances, instances]
  exact congrArg _ (instancesBelow_append _ _ _)

/-- The search on a log: the first image of the name, if none before it is too deep. -/
def searchLog (binary : List Char) (limit : Nat) :
    List (Visit Instance) → Except Fault (Option Instance)
  | [] => .ok none
  | x :: rest =>
      if limit ≤ x.depth then .error .outOfBounds
      else if fileName x.vertex.file = binary then .ok (some x.vertex)
      else searchLog binary limit rest

theorem searchLog_append (binary : List Char) (limit : Nat) (xs ys : List (Visit Instance)) :
    searchLog binary limit (xs ++ ys) =
      searchLog binary limit xs >>= fun found =>
        if found.isSome then .ok found else searchLog binary limit ys := by
  induction xs with
  | nil => rfl
  | cons x rest ih =>
      rw [List.cons_append, searchLog, searchLog]
      split
      · rfl
      · split
        · rfl
        · exact ih

mutual

theorem searchNode_eq (binary : List Char) (top depth : Nat) (h : depth < searchDepth) :
    ∀ node, searchNode binary depth node =
      searchLog binary (top + searchDepth) (instances (top + depth) node)
  | .mk image dependencies => by
      have hdepth : ¬ top + searchDepth ≤ top + depth := by omega
      rw [searchNode, instances, searchLog, if_neg hdepth]
      split
      · rfl
      · exact searchDependencies_eq binary top (depth + 1) dependencies

theorem searchDependencies_eq (binary : List Char) (top depth : Nat) :
    ∀ nodes, searchDependencies binary depth nodes =
      searchLog binary (top + searchDepth) (instancesBelow (top + depth) nodes)
  | [] => by
      rw [searchDependencies, instancesBelow, searchLog]
  | node :: rest => by
      rw [searchDependencies, instancesBelow, searchLog_append]
      by_cases hdepth : searchDepth ≤ depth
      · obtain ⟨image, dependencies⟩ := node
        have hlimit : top + searchDepth ≤ top + depth := by omega
        rw [if_pos hdepth, instances, searchLog, if_pos hlimit]
        rfl
      · rw [if_neg hdepth, searchNode_eq binary top depth (by omega) node,
          searchDependencies_eq binary top depth rest]

end

theorem searchBinary_eq (binary : List Char) (top : Nat) (root : Root) :
    searchBinary root binary =
      searchLog binary (top + searchDepth) (root.instances top) := by
  obtain ⟨image, dependencies⟩ := root
  rw [searchBinary, Root.instances, searchDependencies_eq binary top]
  cases image with
  | none => rfl
  | some i =>
      have hdepth : ¬ top + searchDepth ≤ top := by
        unfold searchDepth
        omega
      rw [Option.toList_some, List.map_singleton, List.singleton_append, searchLog,
        if_neg hdepth]
      simp only [Option.map_some, Option.some.injEq]

end BlockyOS.Loader
