import BlockyOS.Loader.Executables

/-!
# When libraries are shared

A load walks the import graph depth-first.  Each import is looked up among the
images loaded since the importer's parent was, and not among all of them, so
that the order in which the graph is walked decides whether a library that is
loaded already is found again.
-/

namespace BlockyOS.Loader

open BlockyOS.Foundation
open BlockyOS.HostTool (Fault)

/-! ## Instances of a log -/

/-- The images of a log, with the bases counted from `n` on. -/
def number : Nat → List (Visit Path) → List (Visit Instance)
  | _, [] => []
  | n, x :: rest => ⟨⟨x.vertex, n⟩, x.depth⟩ :: number (n + 1) rest

theorem number_append (n : Nat) (xs ys : List (Visit Path)) :
    number n (xs ++ ys) = number n xs ++ number (n + xs.length) ys := by
  induction xs generalizing n with
  | nil => rfl
  | cons x rest ih =>
      rw [List.cons_append, number, number, ih, List.length_cons, List.cons_append,
        Nat.add_assoc, Nat.add_comm 1]

def held (n : Nat) (log : List (Visit Path)) : List Instance := (number n log).map Visit.vertex

theorem mem_held_iff {n : Nat} {log : List (Visit Path)} {i : Instance} :
    i ∈ held n log ↔ ∃ k x, log[k]? = some x ∧ x.vertex = i.file ∧ i.base = n + k := by
  induction log generalizing n with
  | nil => simp [held, number]
  | cons x rest ih =>
      have hcons : held n (x :: rest) = ⟨x.vertex, n⟩ :: held (n + 1) rest := rfl
      rw [hcons, List.mem_cons, ih]
      constructor
      · rintro (rfl | ⟨k, y, hget, hy, hbase⟩)
        · exact ⟨0, x, rfl, rfl, rfl⟩
        · exact ⟨k + 1, y, hget, hy, by omega⟩
      · rintro ⟨k, y, hget, hy, hbase⟩
        cases k with
        | zero =>
            left
            cases hget
            rw [hy, show n = i.base by omega]
        | succ k => exact .inr ⟨k, y, hget, hy, by omega⟩

theorem held_unique {n : Nat} {log : List (Visit Path)} {i j : Instance} (hi : i ∈ held n log)
    (hj : j ∈ held n log) (hbase : i.base = j.base) : i.file = j.file := by
  obtain ⟨k, x, hget, hx, hk⟩ := mem_held_iff.mp hi
  obtain ⟨l, y, hget', hy, hl⟩ := mem_held_iff.mp hj
  obtain rfl : k = l := by omega
  rw [hget] at hget'
  cases hget'
  rw [← hx, ← hy]

theorem held_mono {log log' : List (Visit Path)} (h : log <+: log') {i : Instance}
    (hi : i ∈ held 0 log) : i ∈ held 0 log' := by
  obtain ⟨k, x, hget, hx, hk⟩ := mem_held_iff.mp hi
  obtain ⟨rest, rfl⟩ := h
  have hlt : k < log.length := (List.getElem?_eq_some_iff.mp hget).1
  exact mem_held_iff.mpr ⟨k, x, by rw [List.getElem?_append_left hlt, hget], hx, hk⟩

theorem mem_held_append {pre log : List (Visit Path)} {i : Instance}
    (hi : i ∈ held pre.length log) : i ∈ held 0 (pre ++ log) := by
  rw [held, number_append, List.map_append, List.mem_append, Nat.zero_add]
  exact .inr hi

theorem mem_held_concat (log : List (Visit Path)) (x : Visit Path) :
    ⟨x.vertex, log.length⟩ ∈ held 0 (log ++ [x]) :=
  mem_held_iff.mpr ⟨log.length, x, List.getElem?_concat_length .., rfl, (Nat.zero_add _).symm⟩

mutual

theorem countP_instances (depth : Nat) :
    ∀ node : LoadedPe, (∀ x ∈ instances depth node, depth ≤ x.depth) ∧
      (instances depth node).countP (fun x => x.depth = depth) = 1
  | .mk image dependencies => by
      obtain ⟨hbelow, -⟩ := countP_instancesBelow (depth + 1) dependencies
      rw [instances]
      constructor
      · intro x hx
        rcases List.mem_cons.mp hx with rfl | hx
        · exact Nat.le_refl _
        · have := hbelow x hx
          omega
      · have hnone : (instancesBelow (depth + 1) dependencies).countP
            (fun x => x.depth = depth) = 0 := by
          rw [List.countP_eq_zero]
          intro x hx
          have := hbelow x hx
          rw [decide_eq_true_eq]
          omega
        rw [List.countP_cons, hnone]
        simp

theorem countP_instancesBelow (depth : Nat) :
    ∀ nodes : List LoadedPe, (∀ x ∈ instancesBelow depth nodes, depth ≤ x.depth) ∧
      (instancesBelow depth nodes).countP (fun x => x.depth = depth) = nodes.length
  | [] => ⟨fun _ hx => absurd hx List.not_mem_nil, rfl⟩
  | node :: rest => by
      obtain ⟨hnode, hone⟩ := countP_instances depth node
      obtain ⟨hrest, hcount⟩ := countP_instancesBelow depth rest
      rw [instancesBelow]
      constructor
      · intro x hx
        rcases List.mem_append.mp hx with hx | hx
        · exact hnode x hx
        · exact hrest x hx
      · rw [List.countP_append, hone, hcount, List.length_cons, Nat.add_comm]

end

def countAt (depth : Nat) (log : List (Visit Path)) : Nat :=
  log.countP fun x => x.depth = depth

theorem countP_number (n depth : Nat) (log : List (Visit Path)) :
    (number n log).countP (fun x => x.depth = depth) = countAt depth log := by
  induction log generalizing n with
  | nil => rfl
  | cons x rest ih =>
      rw [number, countAt, List.countP_cons, List.countP_cons, ih]
      rfl

theorem length_dependencies {this : LoadedPe} {depth n : Nat} {own : List (Visit Path)}
    (h : instances depth this = number n own) :
    this.dependencies.length = countAt (depth + 1) own := by
  rw [← countP_number n, ← h]
  obtain ⟨image, dependencies⟩ := this
  rw [instances, List.countP_cons, (countP_instancesBelow (depth + 1) dependencies).2]
  simp [LoadedPe.dependencies]

theorem instances_alone {base n : Nat} (h : base = n) (file : Path) (depth : Nat) :
    instances depth (LoadedPe.mk ⟨file, base⟩ []) = number n [⟨file, depth⟩] := by
  rw [instances_leaf, h]
  rfl

/-! ## The search in a log -/

def hit (libName : List Char) (limit : Nat) (log : List (Visit Path)) : Option (Visit Path) :=
  log.find? fun x => limit ≤ x.depth || fileName x.vertex = libName

theorem searchLog_number_cons (libName : List Char) (limit n : Nat) (x : Visit Path)
    (rest : List (Visit Path)) :
    searchLog libName limit (number n (x :: rest)) =
      if limit ≤ x.depth then .error .outOfBounds
      else if fileName x.vertex = libName then .ok (some ⟨x.vertex, n⟩)
      else searchLog libName limit (number (n + 1) rest) := rfl

theorem searchLog_eq_none_iff {libName : List Char} {limit n : Nat} {log : List (Visit Path)} :
    searchLog libName limit (number n log) = .ok none ↔ hit libName limit log = none := by
  induction log generalizing n with
  | nil => exact iff_of_true rfl rfl
  | cons x rest ih =>
      rw [searchLog_number_cons, hit, List.find?_cons]
      by_cases hdepth : limit ≤ x.depth
      · simp [hdepth]
      · by_cases hname : fileName x.vertex = libName
        · simp [hdepth, hname]
        · simp only [hdepth, hname, if_false, decide_false, Bool.or_self]
          exact ih

theorem searchLog_eq_some {libName : List Char} {limit n : Nat} {log : List (Visit Path)}
    {i : Instance} (h : searchLog libName limit (number n log) = .ok (some i)) :
    i ∈ held n log ∧
      ∃ x, hit libName limit log = some x ∧ x.depth < limit ∧ x.vertex = i.file := by
  induction log generalizing n with
  | nil => cases h
  | cons x rest ih =>
      rw [searchLog_number_cons] at h
      rw [hit, List.find?_cons]
      by_cases hdepth : limit ≤ x.depth
      · rw [if_pos hdepth] at h
        cases h
      · by_cases hname : fileName x.vertex = libName
        · rw [if_neg hdepth, if_pos hname] at h
          cases h
          refine ⟨List.mem_cons_self, x, ?_, by omega, rfl⟩
          simp [hname]
        · rw [if_neg hdepth, if_neg hname] at h
          obtain ⟨hmem, hfound⟩ := ih h
          refine ⟨List.mem_cons_of_mem _ hmem, ?_⟩
          simp only [hdepth, hname, decide_false, Bool.or_self]
          exact hfound

theorem searchLog_of_hit {libName : List Char} {limit : Nat} {log : List (Visit Path)}
    {x : Visit Path} (n : Nat) (h : hit libName limit log = some x) (hdepth : x.depth < limit) :
    ∃ i, searchLog libName limit (number n log) = .ok (some i) ∧ i.file = x.vertex := by
  cases hsearch : searchLog libName limit (number n log) with
  | ok found =>
      cases found with
      | none =>
          rw [searchLog_eq_none_iff.mp hsearch] at h
          cases h
      | some i =>
          obtain ⟨-, y, hy, -, hfile⟩ := searchLog_eq_some hsearch
          rw [h] at hy
          cases hy
          exact ⟨i, rfl, hfile.symm⟩
  | error e =>
      exfalso
      induction log generalizing n with
      | nil => cases hsearch
      | cons y rest ih =>
          rw [searchLog_number_cons] at hsearch
          rw [hit, List.find?_cons] at h
          by_cases hy : limit ≤ y.depth
          · simp only [hy, decide_true, Bool.true_or] at h
            cases h
            omega
          · by_cases hname : fileName y.vertex = libName
            · rw [if_neg hy, if_pos hname] at hsearch
              cases hsearch
            · rw [if_neg hy, if_neg hname] at hsearch
              simp only [hy, hname, decide_false, Bool.or_self] at h
              exact ih (n + 1) h hsearch

/-! ## Programs -/

structure Program where
  images : List (Path × Image)
  main : Path
  present_main : ∃ image, (main, image) ∈ images
  present : ∀ file image, (file, image) ∈ images → ∀ imp ∈ image.imports,
    ∃ lib, (fullPath file imp, lib) ∈ images
  linked : ∀ file image, (file, image) ∈ images → ∀ imp ∈ image.imports,
    ∀ lib, (fullPath file imp, lib) ∈ images → ∀ s ∈ imp.symbols, s ∈ lib.exports

namespace Program

variable (prog : Program)

def drive : Drive := fun file => (prog.images.find? fun entry => entry.1 = file).map Prod.snd

/-- The imports of a file, the edges of the import graph. -/
def imports (file : Path) : List Import := (prog.drive file).elim [] Image.imports

/-- The link names the instance of the file that the import asks for. -/
def Right (log : List (Visit Path)) (link : Link) : Prop :=
  ⟨fullPath link.importer link.imp, link.base⟩ ∈ held 0 log

/--
The load ends with the whole tree: no file is loaded twice, and every import of
every image in the tree is resolved, always against the instance of its file.
-/
def SharesLibraries : Prop :=
  ∃ fuel node s, loadExecutable prog.drive fuel prog.main = .ok (⟨some node, true⟩, s) ∧
    ((instances 1 node).map fun x => x.vertex.file).Nodup ∧
    (∀ link ∈ s.links, ⟨fullPath link.importer link.imp, link.base⟩ ∈
      (instances 1 node).map Visit.vertex) ∧
    ∀ x ∈ instances 1 node, ∀ imp ∈ prog.imports x.vertex.file,
      ∃ link ∈ s.links, link.importer = x.vertex.file ∧ link.imp = imp

/-- Where the search for an import of `file` among the images below its parent ends. -/
def meets (parent depth : Nat) (log : List (Visit Path)) (imp : Import) : Option (Visit Path) :=
  hit imp.libName (depth + searchDepth) (log.drop parent)

/--
The lookup of one import is right: a file that was loaded before is what the
search below the importer's parent meets first, within its depth, and for a file
that was not the search meets nothing and the importer, which stands at `here`, has a
place left.
-/
structure LooksUp (parent here depth : Nat) (log : List (Visit Path)) (file : Path)
    (imp : Import) : Prop where
  again : Visited log (fullPath file imp) →
    ∃ x, meets parent depth log imp = some x ∧ x.depth < depth + searchDepth ∧
      x.vertex = fullPath file imp
  first : ¬ Visited log (fullPath file imp) → meets parent depth log imp = none
  room : ¬ Visited log (fullPath file imp) →
    countAt (depth + 2) (log.drop here) < maxDependencies

/-- The depth-first walk of the import graph looks every import up rightly. -/
def WalkLooksUp : Prop :=
  ∃ log, Explores prog.imports fullPath LooksUp 0 0 0 prog.main (prog.imports prog.main)
    [⟨prog.main, 1⟩] log

theorem mem_images {file : Path} {image : Image} (h : prog.drive file = some image) :
    (file, image) ∈ prog.images := by
  rw [drive, Option.map_eq_some_iff] at h
  obtain ⟨entry, hentry, rfl⟩ := h
  have hfile := List.find?_some hentry
  rw [← of_decide_eq_true hfile]
  exact List.mem_of_find?_eq_some hentry

theorem imports_of_drive {file : Path} {image : Image} (h : prog.drive file = some image) :
    prog.imports file = image.imports := by
  rw [imports, h]
  rfl

theorem drive_eq_some {file : Path} (h : ∃ image, (file, image) ∈ prog.images) :
    ∃ image, prog.drive file = some image ∧ (file, image) ∈ prog.images := by
  obtain ⟨image, hmem⟩ := h
  have hsome : (prog.drive file).isSome := by
    rw [drive, Option.isSome_map, List.find?_isSome]
    exact ⟨_, hmem, decide_eq_true rfl⟩
  obtain ⟨image', hdrive⟩ := Option.isSome_iff_exists.mp hsome
  exact ⟨image', hdrive, prog.mem_images hdrive⟩

theorem drive_fullPath {file : Path} {imp : Import} (h : imp ∈ prog.imports file) :
    ∃ lib, prog.drive (fullPath file imp) = some lib ∧ ∀ s ∈ imp.symbols, s ∈ lib.exports := by
  cases hdrive : prog.drive file with
  | none =>
      rw [imports, hdrive] at h
      cases h
  | some image =>
      rw [prog.imports_of_drive hdrive] at h
      have hmem := prog.mem_images hdrive
      obtain ⟨lib, hlib, hlibMem⟩ := prog.drive_eq_some (prog.present file image hmem imp h)
      exact ⟨lib, hlib, prog.linked file image hmem imp h lib hlibMem⟩

theorem resolves_of_imports {file : Path} {imp : Import} {lib : Instance}
    (h : imp ∈ prog.imports file) (hlib : lib.file = fullPath file imp) :
    resolves prog.drive imp lib = true := by
  obtain ⟨image, hdrive, hexports⟩ := prog.drive_fullPath h
  rw [resolves, hlib, hdrive, List.all_eq_true]
  intro s hs
  exact List.contains_iff_mem.mpr (hexports s hs)

/-! ## From a run to the walk -/

/-- In the log, no file stands twice, and the links are right. -/
def Sound (log : List (Visit Path)) (links : List Link) : Prop :=
  (log.map Visit.vertex).Nodup ∧ ∀ link ∈ links, Right log link

variable {prog}

theorem searchBinary_log {root : Root} {this : LoadedPe} {pre win own : List (Visit Path)}
    {depth : Nat} (hroot : root.instances depth = number pre.length win)
    (hthis : instances (depth + 1) this = number (pre ++ win).length own) (libName : List Char) :
    searchBinary (root.withDependency this) libName =
      searchLog libName (depth + searchDepth) (number pre.length (win ++ own)) := by
  rw [searchBinary_eq libName depth, Root.instances_withDependency, hroot, hthis,
    number_append, List.length_append]

theorem meets_log (pre win own : List (Visit Path)) (depth : Nat) (imp : Import) :
    meets pre.length depth (pre ++ win ++ own) imp =
      hit imp.libName (depth + searchDepth) (win ++ own) := by
  rw [meets, List.append_assoc, List.drop_left]

theorem not_visited_of_nodup {log final : List (Visit Path)} {x : Visit Path}
    (hinitial : log ++ [x] <+: final) (hnodup : (final.map Visit.vertex).Nodup) :
    ¬ Visited log x.vertex := by
  rintro ⟨y, hmem, hy⟩
  have hlog := (hinitial.map Visit.vertex).sublist.nodup hnodup
  rw [List.map_append, List.map_singleton, List.nodup_append] at hlog
  exact hlog.2.2 _ (List.mem_map_of_mem hmem) _ (List.mem_singleton.mpr rfl) hy

/--
A load that completes extends the log by the node and everything under it, and
the extension is a walk that looks the imports up rightly if the outcome is sound.
-/
def LoadWalks (prog : Program) (load : Path → Root → State → Except Fault (Loaded × State)) :
    Prop :=
  ∀ file root s loaded s' pre win depth, load file root s = .ok (loaded, s') →
    loaded.complete = true → root.instances depth = number pre.length win →
    s.allocated = (pre ++ win).length →
    root.dependencies.length < maxDependencies ∧ ∃ node added, loaded.node = some node ∧
      instances (depth + 1) node = number (pre ++ win).length added ∧
      s'.allocated = (pre ++ win ++ added).length ∧ s.links <+: s'.links ∧
      ∀ final, pre ++ win ++ added <+: final → Sound final s'.links →
        Explores prog.imports fullPath LooksUp pre.length (pre ++ win).length depth file
          (prog.imports file) (pre ++ win ++ [⟨file, depth + 1⟩]) (pre ++ win ++ added)

theorem findLibrary_cases {load : Path → Root → State → Except Fault (Loaded × State)}
    {file : Path} {root : Root} {imp : Import} {this this' : LoadedPe} {s s' : State}
    {lib : Instance} (h : findLibrary load file root imp this s = .ok (some lib, this', s')) :
    (searchBinary (root.withDependency this) imp.libName = .ok (some lib) ∧
        this' = this ∧ s' = s) ∨
      (searchBinary (root.withDependency this) imp.libName = .ok none ∧
        ∃ node, load (fullPath file imp) this.root s = .ok (⟨some node, true⟩, s') ∧
          this' = this.withDependency node) := by
  obtain ⟨found, hsearch, hlookup⟩ := bind_ok h
  cases found with
  | some i =>
      cases hlookup
      exact .inl ⟨hsearch, rfl, rfl⟩
  | none =>
      obtain ⟨⟨⟨node, complete⟩, s₁⟩, hcall, heq⟩ := map_ok hlookup
      obtain ⟨hresult, hnode, rfl⟩ : Loaded.result ⟨node, complete⟩ = some lib ∧
          node.elim this this.withDependency = this' ∧ s₁ = s' := by
        simpa using heq
      obtain rfl : complete = true := by
        by_contra hincomplete
        simp [Loaded.result, hincomplete] at hresult
      cases node with
      | none => cases hresult
      | some node => exact .inr ⟨hsearch, node, hcall, hnode.symm⟩

theorem loadImports_cons_ok {drive : Drive}
    {load : Path → Root → State → Except Fault (Loaded × State)} {file : Path} {root : Root}
    {imp : Import} {rest : List Import} {this this' : LoadedPe} {s s' : State}
    (h : loadImports drive load file root (imp :: rest) this s = .ok (true, this', s')) :
    ∃ lib this₁ s₁, findLibrary load file root imp this s = .ok (some lib, this₁, s₁) ∧
      loadImports drive load file root rest this₁
        { s₁ with links := s₁.links ++ [⟨file, imp, lib.base⟩] } = .ok (true, this', s') := by
  rw [loadImports] at h
  obtain ⟨⟨lib, this₁, s₁⟩, hfind, h⟩ := bind_ok h
  cases lib with
  | none => cases h
  | some lib =>
      simp only [Option.elim_some] at h
      split at h
      case isTrue => exact ⟨lib, this₁, s₁, hfind, h⟩
      case isFalse => cases h

theorem visited_of_held {log final : List (Visit Path)} {file : Path} {imp : Import}
    {lib : Instance} (hheld : lib ∈ held 0 log) (hinitial : log <+: final)
    (hright : Right final ⟨file, imp, lib.base⟩) :
    lib.file = fullPath file imp ∧ Visited log (fullPath file imp) := by
  have htarget : lib.file = fullPath file imp :=
    held_unique (held_mono hinitial hheld) hright rfl
  obtain ⟨k, y, hget, hy, -⟩ := mem_held_iff.mp hheld
  exact ⟨htarget, y, List.mem_of_getElem? hget, hy.trans htarget⟩

theorem loadImports_walks {load : Path → Root → State → Except Fault (Loaded × State)}
    (hload : LoadWalks prog load) {file : Path} {root : Root} {pre win : List (Visit Path)}
    {depth : Nat} (hroot : root.instances depth = number pre.length win) {imports : List Import} :
    ∀ {this this' : LoadedPe} {s s' : State} {own : List (Visit Path)},
      loadImports prog.drive load file root imports this s = .ok (true, this', s') →
      instances (depth + 1) this = number (pre ++ win).length own →
      s.allocated = (pre ++ win ++ own).length →
      ∃ added, instances (depth + 1) this' = number (pre ++ win).length (own ++ added) ∧
        s'.allocated = (pre ++ win ++ (own ++ added)).length ∧ s.links <+: s'.links ∧
        ∀ final, pre ++ win ++ (own ++ added) <+: final → Sound final s'.links →
          Explores prog.imports fullPath LooksUp pre.length (pre ++ win).length depth file
            imports (pre ++ win ++ own) (pre ++ win ++ (own ++ added)) := by
  induction imports with
  | nil =>
      intro this this' s s' own hrun hthis halloc
      cases hrun
      refine ⟨[], ?_, ?_, List.prefix_rfl, ?_⟩
      · rw [List.append_nil, hthis]
      · rw [List.append_nil, halloc]
      · intro final _ _
        rw [List.append_nil]
        exact .done
  | cons imp rest ih =>
      intro this this' s s' own hrun hthis halloc
      obtain ⟨lib, this₁, s₁, hfind, hrest⟩ := loadImports_cons_ok hrun
      rcases findLibrary_cases hfind with ⟨hsearch, rfl, rfl⟩ | ⟨hsearch, child, hcall, rfl⟩ <;>
        rw [searchBinary_log hroot hthis] at hsearch
      · -- The library was found, so its file stands in the log already.
        obtain ⟨added, hthis', halloc', hlinks, hwalk⟩ := ih hrest hthis halloc
        refine ⟨added, hthis', halloc', (List.prefix_append _ _).trans hlinks, ?_⟩
        intro final hfinal hsound
        obtain ⟨hmem, x, hhit, hdepth, hx⟩ := searchLog_eq_some hsearch
        have hheld : lib ∈ held 0 (pre ++ win ++ own) := by
          rw [List.append_assoc]
          exact mem_held_append hmem
        have hinitial : pre ++ win ++ own <+: final :=
          (List.append_assoc (pre ++ win) own added ▸ List.prefix_append _ _ :
            pre ++ win ++ own <+: pre ++ win ++ (own ++ added)).trans hfinal
        have hright : Right final ⟨file, imp, lib.base⟩ :=
          hsound.2 _ (hlinks.subset (List.mem_append_right _ (List.mem_singleton.mpr rfl)))
        obtain ⟨htarget, hvisited⟩ := visited_of_held hheld hinitial hright
        refine .seen hvisited ⟨fun _ => ⟨x, ?_, hdepth, hx.trans htarget⟩,
          fun h => absurd hvisited h, fun h => absurd hvisited h⟩ (hwalk final hfinal hsound)
        rw [meets_log]
        exact hhit
      · -- The library was loaded: its walk comes first, then that of the other imports.
        obtain ⟨hroom, node, below, hchild, hbelow, hcount, hsub, hwalkChild⟩ :=
          hload _ _ _ _ _ (pre ++ win) own (depth + 1) hcall rfl
            ((this.instances_root (depth + 1)).trans hthis) halloc
        obtain rfl : child = node := Option.some.inj hchild
        have hthis₁ : instances (depth + 1) (this.withDependency child) =
            number (pre ++ win).length (own ++ below) := by
          rw [LoadedPe.instances_withDependency, hthis, hbelow, number_append,
            ← List.length_append]
        rw [List.append_assoc] at hcount
        obtain ⟨added, hthis', halloc', hlinks, hwalk⟩ := ih hrest hthis₁ hcount
        have hassoc : own ++ below ++ added = own ++ (below ++ added) :=
          List.append_assoc own below added
        rw [hassoc] at hthis' halloc' hwalk
        have hall : s.links <+: s'.links :=
          hsub.trans ((List.prefix_append _ _).trans hlinks)
        refine ⟨below ++ added, hthis', halloc', hall, fun final hfinal hsound => ?_⟩
        have hbelowFinal : pre ++ win ++ own ++ below <+: final := by
          refine List.IsPrefix.trans ⟨added, ?_⟩ hfinal
          simp only [List.append_assoc]
        have hchildSound : Sound final s₁.links :=
          ⟨hsound.1, fun link hmem => hsound.2 link
            (hlinks.subset (List.mem_append_left _ hmem))⟩
        have hchildWalk := hwalkChild final hbelowFinal hchildSound
        have hnew : pre ++ win ++ own ++ [⟨fullPath file imp, depth + 2⟩] <+: final :=
          hchildWalk.isPrefix.trans hbelowFinal
        have hfresh : ¬ Visited (pre ++ win ++ own) (fullPath file imp) :=
          not_visited_of_nodup hnew hsound.1
        refine .fresh hfresh ⟨fun h => absurd h hfresh, fun _ => ?_, fun _ => ?_⟩ hchildWalk ?_
        · rw [meets_log]
          exact searchLog_eq_none_iff.mp hsearch
        · rw [List.drop_left, ← length_dependencies hthis]
          exact hroom
        · rw [List.append_assoc (pre ++ win) own below]
          exact hwalk final hfinal hsound

theorem loadBinary_walks (fuel : Nat) : LoadWalks prog (loadBinary prog.drive fuel) := by
  induction fuel with
  | zero =>
      intro file root s loaded s' pre win depth hrun
      cases hrun
  | succ fuel ih =>
      intro file root s loaded s' pre win depth hrun hcomplete hroot halloc
      rw [loadBinary] at hrun
      cases hdrive : prog.drive file with
      | none =>
          rw [hdrive] at hrun
          cases hrun
          cases hcomplete
      | some image =>
          rw [hdrive, Option.elim_some] at hrun
          split at hrun
          · cases hrun
          next hroom =>
          obtain ⟨⟨complete, this, s₁⟩, himports, heq⟩ := map_ok hrun
          cases heq
          obtain rfl : complete = true := hcomplete
          have hleaf := instances_alone halloc file (depth + 1)
          have hcount : s.allocated + 1 =
              (pre ++ win ++ ([⟨file, depth + 1⟩] : List (Visit Path))).length := by
            rw [List.length_append, ← halloc]
            rfl
          obtain ⟨added, hthis, halloc', hlinks, hwalk⟩ :=
            loadImports_walks ih hroot himports hleaf hcount
          refine ⟨Nat.not_le.mp hroom, this, _, rfl, hthis, halloc', hlinks,
            fun final hfinal hsound => ?_⟩
          rw [prog.imports_of_drive hdrive]
          exact hwalk final hfinal hsound

/-! ## From the walk to a run -/

theorem image_of_loadImports {drive : Drive}
    {load : Path → Root → State → Except Fault (Loaded × State)} {file : Path} {root : Root}
    {imports : List Import} {this this' : LoadedPe} {s s' : State}
    (h : loadImports drive load file root imports this s = .ok (true, this', s')) :
    this'.image = this.image := by
  induction imports generalizing this s with
  | nil =>
      cases h
      rfl
  | cons imp rest ih =>
      obtain ⟨lib, this₁, s₁, hfind, hrest⟩ := loadImports_cons_ok h
      have himage : this₁.image = this.image := by
        rcases findLibrary_cases hfind with ⟨-, rfl, -⟩ | ⟨-, node, -, rfl⟩ <;> rfl
      exact (ih hrest).trans himage

theorem findLibrary_found {load : Path → Root → State → Except Fault (Loaded × State)}
    {file : Path} {root : Root} {imp : Import} {this : LoadedPe} {s : State} {i : Instance}
    (h : searchBinary (root.withDependency this) imp.libName = .ok (some i)) :
    findLibrary load file root imp this s = .ok (some i, this, s) := by
  rw [findLibrary, h]
  rfl

theorem findLibrary_loaded {load : Path → Root → State → Except Fault (Loaded × State)}
    {file : Path} {root : Root} {imp : Import} {this node : LoadedPe} {s s' : State}
    (h : searchBinary (root.withDependency this) imp.libName = .ok none)
    (hload : load (fullPath file imp) this.root s = .ok (⟨some node, true⟩, s')) :
    findLibrary load file root imp this s =
      .ok (some node.image, this.withDependency node, s') := by
  rw [findLibrary, h]
  change Except.map _ (load _ _ _) = _
  rw [hload]
  rfl

theorem loadImports_cons {drive : Drive}
    {load : Path → Root → State → Except Fault (Loaded × State)} {file : Path} {root : Root}
    {imp : Import} {rest : List Import} {this this' : LoadedPe} {s s' : State} {lib : Instance}
    (hfind : findLibrary load file root imp this s = .ok (some lib, this', s'))
    (hresolves : resolves drive imp lib = true) :
    loadImports drive load file root (imp :: rest) this s =
      loadImports drive load file root rest this'
        { s' with links := s'.links ++ [⟨file, imp, lib.base⟩] } := by
  rw [loadImports, hfind]
  change (if resolves drive imp lib = true then _ else _) = _
  rw [if_pos hresolves]

theorem loadBinary_succ {drive : Drive} {fuel : Nat} {file : Path} {root : Root} {s s' : State}
    {image : Image} {this : LoadedPe} (hdrive : drive file = some image)
    (hroom : root.dependencies.length < maxDependencies)
    (himports : loadImports drive (loadBinary drive fuel) file root image.imports
      (.mk ⟨file, s.allocated⟩ []) { s with allocated := s.allocated + 1 } =
        .ok (true, this, s')) :
    loadBinary drive (fuel + 1) file root s = .ok (⟨some this, true⟩, s') := by
  rw [loadBinary, hdrive, Option.elim_some, if_neg (Nat.not_le.mpr hroom), himports]
  rfl

def Resolved (prog : Program) (links : List Link) (file : Path) : Prop :=
  ∀ imp ∈ prog.imports file, ∃ link ∈ links, link.importer = file ∧ link.imp = imp

theorem Resolved.mono {links links' : List Link} {file : Path} (hsub : links ⊆ links')
    (h : Resolved prog links file) : Resolved prog links' file := by
  intro imp hmem
  obtain ⟨link, hlink, hfile⟩ := h imp hmem
  exact ⟨link, hsub hlink, hfile⟩

structure Walked (prog : Program) (here depth : Nat) (v : Path) (es : List Import)
    (log log' : List (Visit Path)) (own : List (Visit Path)) (s : State) (this' : LoadedPe)
    (s' : State) : Prop where
  tree : ∃ added, log' = log ++ added ∧ instances (depth + 1) this' = number here (own ++ added)
  allocated : s'.allocated = log'.length
  links : s.links <+: s'.links
  right : ∀ link ∈ s'.links, link ∈ s.links ∨ Right log' link
  resolved : ∀ imp ∈ es, ∃ link ∈ s'.links, link.importer = v ∧ link.imp = imp
  below : ∀ x ∈ log', x ∈ log ∨ Resolved prog s'.links x.vertex

section Walks

variable {here depth base : Nat} {v : Path} {e : Import} {es : List Import}
  {log mid log' own : List (Visit Path)} {s s' : State} {this' : LoadedPe}

theorem Walked.seen
    (h : Walked prog here depth v es log log' own
      { s with links := s.links ++ [⟨v, e, base⟩] } this' s')
    (hright : Right log' ⟨v, e, base⟩) :
    Walked prog here depth v (e :: es) log log' own s this' s' where
  tree := h.tree
  allocated := h.allocated
  links := (List.prefix_append _ _).trans h.links
  right link hlink := by
    rcases h.right link hlink with hold | hnew
    · rcases List.mem_append.mp hold with hold | hthat
      · exact .inl hold
      · rw [List.mem_singleton.mp hthat]
        exact .inr hright
    · exact .inr hnew
  resolved := by
    have hnew : (⟨v, e, base⟩ : Link) ∈ s'.links :=
      h.links.subset (List.mem_append_right _ (List.mem_singleton.mpr rfl))
    intro imp himp
    rcases List.mem_cons.mp himp with rfl | himp
    · exact ⟨_, hnew, rfl, rfl⟩
    · exact h.resolved imp himp
  below := h.below

theorem Walked.fresh {there depth' : Nat} {x : Visit Path} {added : List (Visit Path)}
    {s₀ s₁ : State} {child : LoadedPe}
    (hchild : Walked prog there depth' x.vertex (prog.imports x.vertex) (log ++ [x]) mid [x]
      s₀ child s₁)
    (hlinks : s₀.links = s.links) (hmid : mid = log ++ ([x] ++ added)) (hinitial : mid <+: log')
    (h : Walked prog here depth v es mid log' (own ++ ([x] ++ added))
      { s₁ with links := s₁.links ++ [⟨v, e, base⟩] } this' s')
    (hright : Right log' ⟨v, e, base⟩) :
    Walked prog here depth v (e :: es) log log' own s this' s' := by
  have hseen := h.seen hright
  have hlinks₁ : s₁.links <+: s'.links := hseen.links
  exact {
    tree := by
      obtain ⟨more, hlog', htree⟩ := hseen.tree
      refine ⟨[x] ++ added ++ more, ?_, ?_⟩
      · rw [hlog', hmid]
        simp only [List.append_assoc]
      · rw [htree]
        simp only [List.append_assoc]
    allocated := hseen.allocated
    links := hlinks ▸ hchild.links.trans hlinks₁
    right := by
      intro link hlink
      rcases hseen.right link hlink with hold | hnew
      · rcases hchild.right link hold with hold | hnew
        · exact .inl (hlinks ▸ hold)
        · exact .inr (held_mono hinitial hnew)
      · exact .inr hnew
    resolved := hseen.resolved
    below := by
      intro y hy
      rcases hseen.below y hy with hy | hy
      · rcases hchild.below y hy with hy | hy
        · rcases List.mem_append.mp hy with hy | hy
          · exact .inl hy
          · rw [List.mem_singleton.mp hy]
            exact .inr (Resolved.mono hlinks₁.subset hchild.resolved)
        · exact .inr (hy.mono hlinks₁.subset)
      · exact .inr hy }

end Walks

theorem run_of_explores {parent here depth : Nat} {v : Path} {es : List Import}
    {log log' : List (Visit Path)}
    (h : Explores prog.imports fullPath LooksUp parent here depth v es log log') :
    ∃ enough, ∀ (pre win own : List (Visit Path)) (root : Root) (this : LoadedPe) (s : State),
      log = pre ++ win ++ own → parent = pre.length → here = (pre ++ win).length →
      root.instances depth = number parent win → instances (depth + 1) this = number here own →
      s.allocated = log.length → (∀ e ∈ es, e ∈ prog.imports v) → ∀ fuel, enough ≤ fuel →
      ∃ this' s', loadImports prog.drive (loadBinary prog.drive fuel) v root es this s =
          .ok (true, this', s') ∧ Walked prog here depth v es log log' own s this' s' := by
  induction h with
  | done =>
      refine ⟨0, fun pre win own root this s hlog hparent hhere hroot hthis halloc hes fuel _ =>
        ⟨this, s, rfl, ?_⟩⟩
      exact {
        tree := ⟨[], (List.append_nil _).symm, by rw [List.append_nil, hthis]⟩
        allocated := halloc
        links := List.prefix_rfl
        right := fun link hmem => .inl hmem
        resolved := fun imp hmem => absurd hmem List.not_mem_nil
        below := fun x hmem => .inl hmem }
  | @seen parent here depth v e es log log' hseen hallowed hrest ih =>
      obtain ⟨enough, ih⟩ := ih
      refine ⟨enough, fun pre win own root this s hlog hparent hhere hroot hthis halloc hes fuel
        hfuel => ?_⟩
      subst hparent hhere
      obtain ⟨x, hmeets, hdepth, hx⟩ := hallowed.again hseen
      rw [hlog, meets_log] at hmeets
      obtain ⟨i, hsearch, hfile⟩ := searchLog_of_hit pre.length hmeets hdepth
      have hheld : i ∈ held 0 log := by
        rw [hlog, List.append_assoc]
        exact mem_held_append (searchLog_eq_some hsearch).1
      have htarget : i.file = fullPath v e := hfile.trans hx
      have hmem : e ∈ prog.imports v := hes e List.mem_cons_self
      have hfind : findLibrary (loadBinary prog.drive fuel) v root e this s =
          .ok (some i, this, s) :=
        findLibrary_found ((searchBinary_log hroot hthis e.libName).trans hsearch)
      obtain ⟨this', s', hrun, hwalked⟩ := ih pre win own root this
        { s with links := s.links ++ [⟨v, e, i.base⟩] } hlog rfl rfl hroot hthis halloc
        (fun e' he' => hes e' (List.mem_cons_of_mem _ he')) fuel hfuel
      have hright : Right log' ⟨v, e, i.base⟩ := by
        rw [Right, ← htarget]
        exact held_mono hrest.isPrefix hheld
      exact ⟨this', s', (loadImports_cons hfind (prog.resolves_of_imports hmem htarget)).trans
        hrun, hwalked.seen hright⟩
  | @fresh parent here depth v e es log mid log' hfresh hallowed hchild hrest ihchild ihrest =>
      obtain ⟨enough, ihchild⟩ := ihchild
      obtain ⟨enough', ihrest⟩ := ihrest
      refine ⟨max (enough + 1) enough', fun pre win own root this s hlog hparent hhere hroot hthis
        halloc hes fuel hfuel => ?_⟩
      subst hparent hhere
      obtain ⟨fuel, rfl⟩ : ∃ k, fuel = k + 1 := ⟨fuel - 1, by omega⟩
      have hmem : e ∈ prog.imports v := hes e List.mem_cons_self
      have hsearch : searchBinary (root.withDependency this) e.libName = .ok none := by
        rw [searchBinary_log hroot hthis, searchLog_eq_none_iff, ← meets_log, ← hlog]
        exact hallowed.first hfresh
      obtain ⟨image, hdrive, -⟩ := prog.drive_fullPath hmem
      have hleaf := instances_alone halloc (fullPath v e) (depth + 2)
      obtain ⟨child, s₁, hrunChild, hwalkedChild⟩ := ihchild (pre ++ win) own
        [⟨fullPath v e, depth + 2⟩] this.root (.mk ⟨fullPath v e, s.allocated⟩ [])
        { s with allocated := s.allocated + 1 } (by rw [hlog]) rfl (by rw [hlog])
        ((this.instances_root (depth + 1)).trans hthis) hleaf
        (by rw [List.length_append, ← halloc]; rfl) (fun e' he' => he') fuel (by omega)
      have himage : child.image = ⟨fullPath v e, s.allocated⟩ :=
        image_of_loadImports hrunChild
      rw [prog.imports_of_drive hdrive] at hrunChild
      have hroom := hallowed.room hfresh
      rw [hlog, List.drop_left, ← length_dependencies hthis] at hroom
      have hfind := findLibrary_loaded hsearch (loadBinary_succ hdrive hroom hrunChild)
      obtain ⟨added, hmid, htree⟩ := hwalkedChild.tree
      have hthis' : instances (depth + 1) (this.withDependency child) =
          number (pre ++ win).length (own ++ ([⟨fullPath v e, depth + 2⟩] ++ added)) := by
        have hend : log.length = (pre ++ win).length + own.length := by
          rw [hlog, List.length_append]
        rw [LoadedPe.instances_withDependency, hthis, htree, number_append (pre ++ win).length own,
          hend]
      rw [List.append_assoc] at hmid
      have hmid' : mid = pre ++ win ++ (own ++ ([⟨fullPath v e, depth + 2⟩] ++ added)) := by
        rw [hmid, hlog, List.append_assoc]
      obtain ⟨this', s', hrun, hwalked⟩ := ihrest pre win _ root _
        { s₁ with links := s₁.links ++ [⟨v, e, child.image.base⟩] } hmid' rfl rfl hroot hthis'
        hwalkedChild.allocated (fun e' he' => hes e' (List.mem_cons_of_mem _ he')) (fuel + 1)
        (by omega)
      have hresolves := prog.resolves_of_imports hmem (congrArg Instance.file himage)
      have hheld : (⟨fullPath v e, s.allocated⟩ : Instance) ∈
          held 0 (log ++ [⟨fullPath v e, depth + 2⟩]) := by
        rw [halloc]
        exact mem_held_concat log _
      have hright : Right log' ⟨v, e, child.image.base⟩ := by
        rw [himage]
        exact held_mono (hchild.isPrefix.trans hrest.isPrefix) hheld
      exact ⟨this', s', (loadImports_cons hfind hresolves).trans hrun,
        Walked.fresh (x := ⟨fullPath v e, depth + 2⟩) hwalkedChild rfl hmid hrest.isPrefix hwalked
          hright⟩

/-! ## When libraries are shared -/

variable (prog)

theorem exists_walk : ∃ log, Explores prog.imports fullPath (fun _ _ _ _ _ _ => True) 0 0 0
    prog.main (prog.imports prog.main) [⟨prog.main, 1⟩] log := by
  have hclosed : ∀ file ∈ (prog.images.map Prod.fst).toFinset, ∀ imp ∈ prog.imports file,
      fullPath file imp ∈ (prog.images.map Prod.fst).toFinset := by
    intro file _ imp himp
    obtain ⟨lib, hdrive, -⟩ := prog.drive_fullPath himp
    rw [List.mem_toFinset]
    exact List.mem_map_of_mem (prog.mem_images hdrive)
  have hmain : prog.main ∈ (prog.images.map Prod.fst).toFinset := by
    obtain ⟨image, hmem⟩ := prog.present_main
    rw [List.mem_toFinset]
    exact List.mem_map_of_mem hmem
  exact exists_explores hclosed (fun _ _ _ _ _ _ => trivial) _ _ 0 0 0 prog.main _
    (hclosed prog.main hmain) le_rfl

theorem files_number (n : Nat) (log : List (Visit Path)) :
    (number n log).map (fun x => x.vertex.file) = log.map Visit.vertex := by
  induction log generalizing n with
  | nil => rfl
  | cons x rest ih => rw [number, List.map_cons, List.map_cons, ih]

/-- The libraries are shared exactly where the walk looks every import up rightly. -/
theorem sharesLibraries_iff : prog.SharesLibraries ↔ prog.WalkLooksUp := by
  constructor
  · rintro ⟨fuel, node, s, hrun, hnodup, hlinks, -⟩
    obtain ⟨-, node', added, hnode, htree, -, -, hwalk⟩ :=
      loadBinary_walks fuel prog.main stub ⟨0, []⟩ _ s [] [] 0 hrun rfl rfl rfl
    cases hnode
    simp only [List.nil_append, List.length_nil, Nat.zero_add] at htree hwalk
    rw [htree] at hnodup hlinks
    rw [files_number] at hnodup
    exact ⟨added, hwalk added List.prefix_rfl ⟨hnodup, hlinks⟩⟩
  · rintro ⟨log, hwalk⟩
    obtain ⟨image, hdrive, -⟩ := prog.drive_eq_some prog.present_main
    obtain ⟨enough, hrun⟩ := run_of_explores hwalk
    obtain ⟨this, s, himports, hwalked⟩ := hrun [] [] [⟨prog.main, 1⟩] stub
      (.mk ⟨prog.main, 0⟩ []) ⟨1, []⟩ rfl rfl rfl rfl (instances_alone rfl prog.main 1) rfl
      (fun e he => he) enough le_rfl
    rw [prog.imports_of_drive hdrive] at himports
    obtain ⟨added, hlog, htree⟩ := hwalked.tree
    rw [← hlog] at htree
    refine ⟨enough + 1, this, s, loadBinary_succ hdrive (by decide) himports, ?_, ?_, ?_⟩
    · rw [htree, files_number]
      exact hwalk.nodup (List.nodup_singleton _)
    · intro link hlink
      rw [htree]
      rcases hwalked.right link hlink with hold | hright
      · cases hold
      · exact hright
    · intro x hx
      rw [htree] at hx
      have hmem : x.vertex.file ∈ log.map Visit.vertex := by
        rw [← files_number 0]
        exact List.mem_map_of_mem hx
      obtain ⟨y, hy, hfile⟩ := List.mem_map.mp hmem
      rw [← hfile]
      rcases hwalked.below y hy with hfirst | hresolved
      · rw [List.mem_singleton.mp hfirst]
        exact hwalked.resolved
      · exact hresolved

end Program

/-! ## A library behind two branches -/

def sampleImage (libs : List Char) : Image := ⟨libs.map fun c => ⟨[c], []⟩, []⟩

def sampleFile (c : Char) : Path := ['b', '/', c]

/-- `k` imports `a` and `b`, `b` imports `d`, and `d` imports `a`. -/
def sampleImages : List (Path × Image) :=
  [(sampleFile 'k', sampleImage ['a', 'b']), (sampleFile 'a', sampleImage []),
    (sampleFile 'b', sampleImage ['d']), (sampleFile 'd', sampleImage ['a'])]

theorem present_sampleImages : ∀ entry ∈ sampleImages, ∀ imp ∈ entry.2.imports,
    ∃ lib ∈ sampleImages.map Prod.snd, (fullPath entry.1 imp, lib) ∈ sampleImages := by
  decide

theorem symbols_sampleImages : ∀ entry ∈ sampleImages, ∀ imp ∈ entry.2.imports,
    imp.symbols = [] := by
  decide

def sampleProgram : Program where
  images := sampleImages
  main := sampleFile 'k'
  present_main := ⟨_, List.mem_cons_self⟩
  present file image hmem imp himp :=
    (present_sampleImages (file, image) hmem imp himp).imp fun _ h => h.2
  linked file image hmem imp himp _ _ _ hs :=
    absurd (symbols_sampleImages (file, image) hmem imp himp ▸ hs) List.not_mem_nil

theorem loadExecutable_sample (fuel : Nat) :
    loadExecutable sampleProgram.drive (fuel + 4) sampleProgram.main =
      .ok (⟨some (.mk ⟨sampleFile 'k', 0⟩ [.mk ⟨sampleFile 'a', 1⟩ [],
        .mk ⟨sampleFile 'b', 2⟩ [.mk ⟨sampleFile 'd', 3⟩ [.mk ⟨sampleFile 'a', 4⟩ []]]]), true⟩,
        ⟨5, [⟨sampleFile 'k', ⟨['a'], []⟩, 1⟩, ⟨sampleFile 'd', ⟨['a'], []⟩, 4⟩,
          ⟨sampleFile 'b', ⟨['d'], []⟩, 3⟩, ⟨sampleFile 'k', ⟨['b'], []⟩, 2⟩]⟩) := by
  rfl

theorem not_sharesLibraries_sample : ¬ sampleProgram.SharesLibraries := by
  rintro ⟨fuel, node, s, hrun, hnodup, -⟩
  match fuel, hrun with
  | 0, hrun => cases hrun
  | 1, hrun => cases hrun
  | 2, hrun => cases hrun
  | 3, hrun => cases hrun
  | fuel + 4, hrun =>
    rw [loadExecutable_sample] at hrun
    cases hrun
    revert hnodup
    decide

end BlockyOS.Loader
