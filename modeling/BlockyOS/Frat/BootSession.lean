import BlockyOS.Foundation.Servers
import BlockyOS.Frat.LoaderReads

/-!
# What the loader's sockets answer

Files are opened, read and closed in any order on the disk that the tool left
behind.  Every answer is the one that the contents of the tool's files give, and
nothing of these contents changes.
-/

namespace BlockyOS.Frat.Uefi

open BlockyOS.Foundation
open BlockyOS.HostTool (Fault Fcode FsBlock ConfFsroot FHandle Volume Path Host HasEntry Op Session
  FileEntries ListedFirst AsMounted MiniGPT flagcheck fsDirectory fsMetadataCluster getfcode getloc
  ffindhi ffindhi_some dirBlock dirBlocks dirBytes fuloadroot fmount_fuloadroot_eq mountedOr
  fmount_mountedOr asMounted_of_fmount run_sameGeometry gptLBA sizeofMiniGPT sampleImage
  sampleMounted sampleName sampleHost samplePath)

/-! ## Contents -/

inductive Node where
  | directory
  | file (data : Bytes)

/-- What the volume holds under a path. -/
def contents (E : Host) (v : Volume) (path : Path) : Option Node :=
  (ffindhi v.root (getfcode E path) 0).map fun fb =>
    if flagcheck (v.root.block fb).attributes fsDirectory then .directory
    else .file (dirBytes v (getfcode E path) (dirBlocks v.root (getfcode E path)))

def onOpened (opened : List (Option Bytes)) (socket : Nat)
    (call : Bytes → Except Fault (List (Option Bytes) × Answer)) :
    Except Fault (List (Option Bytes) × Answer) :=
  match opened[socket]? with
  | some (some data) => call data
  | _ => .error .nullDeref

/-- The answers that the contents give; only the open files are remembered. -/
def answer (node : Path → Option Node) (opened : List (Option Bytes)) :
    Request → Except Fault (List (Option Bytes) × Answer)
  | .openChild path =>
      match node path with
      | none => .ok (opened, .noFile)
      | some .directory => .ok (opened, .directory)
      | some (.file data) => .ok (opened ++ [some data], .opened opened.length)
  | .size socket => onOpened opened socket fun data => .ok (opened, .size data.length)
  | .read socket pos bytes =>
      onOpened opened socket fun data => .ok (opened, .data (readRange data pos bytes) bytes)
  | .close socket => onOpened opened socket fun _ => .ok (opened.set socket none, .closed)

/-- Opened files hold no extension clusters, and ranges do not wrap. -/
def Admitted (E : Host) (fr : ConfFsroot) : Request → Prop
  | .openChild path => ∀ fb, ffindhi fr (getfcode E path) 0 = some fb →
      flagcheck (fr.block fb).attributes fsDirectory = false →
        ∃ k, Stored fr fb (getfcode E path) k
  | .read _ pos bytes => fr.blkSize + pos + bytes < 2 ^ 64
  | _ => True

/-! ## Open files -/

inductive Serving (v : Volume) : Option FHandle → Option Bytes → Prop
  | closed : Serving v none none
  | opened {h : FHandle} {c : Fcode} {k : Nat} (hstored : Stored v.root h.file c k) :
      Serving v (some h) (some (dirBytes v c k))

structure Serves (v : Volume) (s : Sockets) (opened : List (Option Bytes)) : Prop where
  kept : Kept v s.vol
  length : s.files.length = opened.length
  files : ∀ i : Nat, Option.Rel (Serving v) s.files[i]? opened[i]?

section Serves

variable {v : Volume} {s : Sockets} {opened : List (Option Bytes)} (hs : Serves v s opened)

include hs

theorem Serves.call {socket : Nat} {call : FHandle → Except Fault (Sockets × Answer)}
    {call' : Bytes → Except Fault (List (Option Bytes) × Answer)}
    (hcall : ∀ h c k, Stored v.root h.file c k → s.files[socket]? = some (some h) →
      opened[socket]? = some (some (dirBytes v c k)) →
        Alike (Serves v) (call h) (call' (dirBytes v c k))) :
    Alike (Serves v) (s.onFile socket call) (onOpened opened socket call') := by
  have hrel := hs.files socket
  rw [Sockets.onFile, onOpened]
  generalize s.files[socket]? = file at hrel hcall
  generalize opened[socket]? = held at hrel hcall
  cases hrel with
  | none => exact .error _
  | some hserving =>
      cases hserving with
      | closed => exact .error _
      | opened hstored => exact hcall _ _ _ hstored rfl rfl

theorem Serves.append {vol : Volume} (hkept : Kept v vol) {h : FHandle} {c : Fcode} {k : Nat}
    (hstored : Stored v.root h.file c k) :
    Serves v ⟨vol, s.files ++ [some h]⟩ (opened ++ [some (dirBytes v c k)]) := by
  have hlength := hs.length
  refine ⟨hkept, ?_, fun i => ?_⟩
  · rw [List.length_append, List.length_append, hlength]
    rfl
  · rcases Nat.lt_trichotomy i s.files.length with hlt | heq | hgt
    · rw [List.getElem?_append_left hlt, List.getElem?_append_left (by omega)]
      exact hs.files i
    · rw [List.getElem?_append_right (by omega), List.getElem?_append_right (by omega), heq,
        Nat.sub_self, hlength, Nat.sub_self]
      exact .some (.opened hstored)
    · have hnone : (s.files ++ [some h])[i]? = none :=
        List.getElem?_eq_none (by rw [List.length_append, List.length_singleton]; omega)
      have hnone' : (opened ++ [some (dirBytes v c k)])[i]? = none :=
        List.getElem?_eq_none (by rw [List.length_append, List.length_singleton]; omega)
      rw [hnone, hnone']
      exact .none

theorem Serves.set {vol : Volume} (hkept : Kept v vol) (socket : Nat) {file : Option FHandle}
    {data : Option Bytes} (hserving : Serving v file data) :
    Serves v ⟨vol, s.files.set socket file⟩ (opened.set socket data) := by
  have hlength := hs.length
  refine ⟨hkept, ?_, fun i => ?_⟩
  · rw [List.length_set, List.length_set, hlength]
  · rw [List.getElem?_set, List.getElem?_set, hlength]
    split
    case isTrue =>
      split
      case isTrue => exact .some hserving
      case isFalse => exact .none
    case isFalse => exact hs.files i

theorem Serves.move {vol : Volume} (hkept : Kept v vol) {socket : Nat} {h : FHandle} {c : Fcode}
    {k : Nat} (hstored : Stored v.root h.file c k)
    (hopened : opened[socket]? = some (some (dirBytes v c k))) :
    Serves v ⟨vol, s.files.set socket (some h)⟩ opened := by
  have hset := hs.set hkept socket (.opened hstored)
  have hsame : opened.set socket (some (dirBytes v c k)) = opened := by
    apply List.ext_getElem?
    intro i
    rw [List.getElem?_set]
    split
    case isTrue heq =>
      subst heq
      rw [hopened, if_pos (List.getElem?_eq_some_iff.mp hopened).1]
    case isFalse => rfl
  rwa [hsame] at hset

end Serves

theorem Kept.contents_eq {v₀ v : Volume} (hkept : Kept v₀ v) (E : Host) :
    contents E v = contents E v₀ := by
  funext path
  have hblocks := (HostTool.dirBlocks_spec v₀.root (getfcode E path)).1
  have hitems := v₀.root.length_lt
  rw [v₀.root.length_clusterMap] at hitems
  have hbytes := @Kept.dirBytes_eq v₀ v hkept (getfcode E path)
    (dirBlocks v₀.root (getfcode E path)) (by omega)
  rw [contents, contents, hkept.root, hbytes]

/-! ## Requests -/

section Requests

variable (E : Host) (M : Machine) {v : Volume} {s : Sockets} {opened : List (Option Bytes)}
  (hs : Serves v s opened)

include hs

theorem Serves.openChild {path : Path} (hop : Admitted E v.root (.openChild path)) :
    Alike (Serves v) (s.step E M (.openChild path))
      (answer (contents E v) opened (.openChild path)) := by
  have hroot := hs.kept.root
  have hfind : loader.find s.vol.root (getfcode E path) 0 =
      ffindhi v.root (getfcode E path) 0 := by
    rw [hroot]
    exact loader_looksUp _ _ 0 (by decide)
  rw [Sockets.step, Sockets.sckOpenChild, hfind, answer, contents]
  cases hfound : ffindhi v.root (getfcode E path) 0 with
  | none => exact .ok _ hs
  | some fb =>
      rw [Option.map_some, hroot]
      dsimp only
      by_cases hflag : flagcheck (v.root.block fb).attributes fsDirectory = true
      · rw [if_pos hflag, if_pos hflag]
        exact .ok _ hs
      · obtain ⟨k, hstored⟩ := hop fb hfound (Bool.eq_false_iff.mpr hflag)
        have hnext := hs.append (h := ⟨fb, v.root.blkSize, path⟩) hs.kept hstored
        rw [if_neg hflag, if_neg hflag, hstored.entries.dirBlocks_eq, hs.length]
        exact .ok _ hnext

theorem Serves.size (socket : Nat) :
    Alike (Serves v) (s.step E M (.size socket))
      (answer (contents E v) opened (.size socket)) := by
  have hroot := hs.kept.root
  rw [Sockets.step, answer]
  apply hs.call
  intro h c k hstored _ _
  have hsame : Stored s.vol.root h.file c k := by rwa [hroot]
  have hlen : fsize s.vol.root h.file = (dirBytes v c k).length := by
    rw [hsame.fsize_eq, hroot,
      HostTool.length_dirBytes (Nat.le_of_eq hstored.entries.dirBlocks_eq.symm), Nat.mul_comm]
  rw [hlen]
  exact .ok _ hs

variable {size : Nat} (hdisk : DiskHolds v.root size) (hheld : size ≤ v.image.size)

include hdisk hheld

theorem Serves.read {socket pos bytes : Nat}
    (hfit : v.root.blkSize + pos + bytes < 2 ^ 64) :
    Alike (Serves v) (s.step E M (.read socket pos bytes))
      (answer (contents E v) opened (.read socket pos bytes)) := by
  have hroot := hs.kept.root
  have hdisk' : DiskHolds s.vol.root size := by rwa [hroot]
  have hsize := Nat.le_trans hheld hs.kept.size
  have hfit' : s.vol.root.blkSize + pos + bytes < 2 ^ 64 := by rwa [hroot]
  rw [Sockets.step, answer]
  apply hs.call
  intro h c k hstored _ hopened
  have hsame : Stored s.vol.root h.file c k := by rwa [hroot]
  obtain ⟨h', vol, hread, hfile, hkept⟩ := hsame.fread_eq hdisk' hsize M rfl hfit'
  have hbytes : dirBytes s.vol c k = dirBytes v c k :=
    hs.kept.dirBytes_eq hstored.entries.lt
  rw [Sockets.sckread, hread, hbytes, Except.map]
  have hnext := hs.move (hs.kept.trans hkept) (by rw [hfile]; exact hstored) hopened
  dsimp only
  rw [if_pos rfl]
  exact .ok _ hnext

theorem Serves.close (socket : Nat) :
    Alike (Serves v) (s.step E M (.close socket))
      (answer (contents E v) opened (.close socket)) := by
  have hroot := hs.kept.root
  have hdisk' : DiskHolds s.vol.root size := by rwa [hroot]
  have hsize := Nat.le_trans hheld hs.kept.size
  have hkept := hs.kept.trans (fuloadh_kept hdisk' hsize M)
  rw [Sockets.step, answer]
  apply hs.call
  intro h c k _ _ _
  exact .ok _ (hs.set hkept socket .closed)

theorem Serves.step {op : Request} (hop : Admitted E v.root op) :
    Alike (Serves v) (s.step E M op) (answer (contents E v) opened op) := by
  cases op with
  | openChild path => exact hs.openChild E M hop
  | size socket => exact hs.size E M socket
  | read socket pos bytes => exact hs.read E M hdisk hheld hop
  | close socket => exact hs.close E M hdisk hheld socket

end Requests

theorem sockets_alike (E : Host) (M : Machine) {v : Volume} {size : Nat}
    (hdisk : DiskHolds v.root size) (hheld : size ≤ v.image.size) {ops : List Request}
    (hops : ∀ op ∈ ops, Admitted E v.root op) :
    Alike (Serves v) (serveAll (Sockets.step E M) ⟨v, []⟩ ops)
      (serveAll (answer (contents E v)) [] ops) := by
  have hstart : Serves v ⟨v, []⟩ [] := ⟨Kept.refl v, rfl, fun _ => .none⟩
  exact serveAll_alike (fun _ _ _ hs hop => hs.step E M hdisk hheld hop) hops hstart

/-! ## After a session of the tool -/

/-- A mount starts with its cursor at the first slot; nothing else depends on the cursor. -/
def rewound (v : Volume) : Volume := ⟨v.root.setCursor 0, v.image, 0⟩

theorem Admitted.rewound {E : Host} {fr : ConfFsroot} {op : Request} (h : Admitted E fr op) :
    Admitted E (fr.setCursor 0) op := by
  cases op with
  | openChild path =>
      intro fb hfind hflag
      obtain ⟨k, hstored⟩ := h fb hfind hflag
      exact ⟨k, ⟨hstored.entries.entry, hstored.entries.present, hstored.entries.metadata⟩,
        hstored.plain⟩
  | size socket => trivial
  | read socket pos bytes => exact h
  | close socket => trivial

theorem window_rewound (v : Volume) (s : Nat) : (rewound v).window s = v.window s := by
  have hsame := ConfFsroot.SameGeometry.setCursor v.root 0
  change v.image.window ((v.root.setCursor 0).slotOffset s) (v.root.setCursor 0).span = _
  rw [hsame.slotOffset, hsame.span]
  rfl

theorem dirBytes_rewound (v : Volume) (c : Fcode) (n : Nat) :
    dirBytes (rewound v) c n = dirBytes v c n := by
  have hblock : dirBlock (rewound v) c = dirBlock v c := by
    funext k
    have hfind : ffindhi (rewound v).root c (k + 1) = ffindhi v.root c (k + 1) := rfl
    unfold dirBlock
    rw [hfind]
    cases ffindhi v.root c (k + 1) with
    | none => rfl
    | some s =>
        dsimp only
        rw [window_rewound]
        rfl
  rw [dirBytes, dirBytes, hblock]

theorem contents_rewound (E : Host) (v : Volume) : contents E (rewound v) = contents E v := by
  funext path
  have hfind : ffindhi (rewound v).root (getfcode E path) 0 =
      ffindhi v.root (getfcode E path) 0 := rfl
  have hblocks : dirBlocks (rewound v).root (getfcode E path) =
      dirBlocks v.root (getfcode E path) := rfl
  rw [contents, contents, hfind, hblocks, dirBytes_rewound]
  rfl

/--
Whatever the tool did to the disk before it unmounted, the loader mounts its
root, and answers all requests as the contents of the tool's files answer them.
-/
theorem boot_after_session (E : Host) (M : Machine) {img : Image} {fr : ConfFsroot}
    {ticks size : Nat} {toolOps : List Op} {s : Session} {ops : List Request}
    (hmount : HostTool.fmount img = .ok (.mounted fr))
    (hrun : run (Session.step E) (.initial ⟨fr, img, ticks⟩) toolOps = .ok s)
    (hlisted : ListedFirst (fuloadroot s.vol).image s.vol.root.loc)
    (htable : TableFits (fuloadroot s.vol).image) (hdisk : DiskHolds fr size)
    (hheld : size ≤ s.vol.image.size) (hops : ∀ op ∈ ops, Admitted E s.vol.root op) :
    fmount M (fuloadroot s.vol).image = .ok (.mounted (s.vol.root.setCursor 0)) ∧
      (serveAll (Sockets.step E M) ⟨rewound (fuloadroot s.vol), []⟩ ops).map Prod.snd =
        (serveAll (answer (contents E s.vol)) [] ops).map Prod.snd ∧
      ∀ s' answers, serveAll (Sockets.step E M) ⟨rewound (fuloadroot s.vol), []⟩ ops =
        .ok (s', answers) → contents E s'.vol = contents E s.vol := by
  have hsame : ConfFsroot.SameGeometry fr s.vol.root := run_sameGeometry hrun
  have hdisk := hdisk.of_sameGeometry hsame
  have hflush : Kept s.vol (fuloadroot s.vol) := fuloadroot_kept hdisk
  have hcontents : contents E (rewound (fuloadroot s.vol)) = contents E s.vol :=
    (contents_rewound E _).trans (hflush.contents_eq E)
  have hmounted : AsMounted s.vol.root :=
    (asMounted_of_fmount hmount).of_sameGeometry hsame
  have hdisk' : DiskHolds (s.vol.root.setCursor 0) size :=
    hdisk.of_sameGeometry (ConfFsroot.SameGeometry.setCursor _ 0)
  have halike := sockets_alike E M (v := rewound (fuloadroot s.vol)) hdisk'
    (Nat.le_trans hheld hflush.size) (fun op hop => (hops op hop).rewound)
  rw [hcontents] at halike
  refine ⟨?_, halike.answers_eq, fun s' answers hserved => ?_⟩
  · exact fmount_agrees M htable (fmount_fuloadroot_eq hdisk.map hmounted hlisted)
      hdisk'.map hdisk.clusterSize_pos
  · obtain ⟨opened, hserves⟩ := halike.exists_of_ok hserved
    rw [hserves.kept.contents_eq E, hcontents]

/-- The small disk, with room for the data blocks behind its partition. -/
def bootImage : Image := sampleImage.write (2 ^ 40 - 1) [0]

def bootMounted : ConfFsroot := mountedOr bootImage sampleMounted

theorem fmount_bootImage : HostTool.fmount bootImage = .ok (.mounted bootMounted) := by
  have heval : ((HostTool.fmount bootImage).map fun mounted =>
      mounted.casesOn (motive := fun _ => Bool) false (fun _ _ => false)
        fun _ => true).toOption = some true := by
    decide +kernel
  obtain ⟨mounted, hmount, hkind⟩ := ok_of_eval heval
  cases mounted with
  | null => cases hkind
  | unmapped base root => cases hkind
  | mounted fr => exact fmount_mountedOr _ hmount

theorem bootMounted_holds : DiskHolds bootMounted (2 ^ 40) := by
  have hlength : bootMounted.clusterMap.length = 7 := by decide +kernel
  have hslots : ∀ s, s < 7 → bootMounted.loc * 512 +
      (getloc bootMounted s - bootMounted.loc) * bootMounted.span + bootMounted.span ≤ 2 ^ 40 := by
    decide +kernel
  exact ⟨⟨by decide +kernel, by decide +kernel, by decide +kernel⟩,
    asMounted_of_fmount fmount_bootImage, by decide +kernel, by decide +kernel,
    fun s hs => hslots s (by omega), by omega⟩

/-- The map when the file `a` has one data block. -/
def oneFile : List FsBlock :=
  [⟨getfcode sampleHost samplePath, fsMetadataCluster, 0⟩,
    ⟨getfcode sampleHost samplePath, 0, 1⟩, FsBlock.zero, FsBlock.zero, FsBlock.zero,
    FsBlock.zero, FsBlock.zero]

theorem stored_oneFile {fr : ConfFsroot} (hmap : fr.clusterMap = oneFile) :
    Stored fr 0 (getfcode sampleHost samplePath) 1 := by
  have hblock : ∀ s, fr.block s = oneFile.getD s FsBlock.zero := by
    intro s
    rw [ConfFsroot.block, hmap]
  have hlength : fr.clusterMap.length = 7 := by
    rw [hmap]
    rfl
  have hentries : ∀ s i, HasEntry fr s (getfcode sampleHost samplePath) i →
      s = 0 ∧ i = 0 ∨ s = 1 ∧ i = 1 := by
    rintro s i ⟨hlt, hcode, rfl⟩
    have hslots : ∀ s, s < 7 →
        (oneFile.getD s FsBlock.zero).fcode = getfcode sampleHost samplePath →
          s = 0 ∧ (oneFile.getD s FsBlock.zero).index.toNat = 0 ∨
            s = 1 ∧ (oneFile.getD s FsBlock.zero).index.toNat = 1 := by
      decide
    rw [hblock] at hcode ⊢
    exact hslots s (by omega) hcode
  have hfirst : HasEntry fr 0 (getfcode sampleHost samplePath) 0 :=
    ⟨by omega, by rw [hblock]; rfl, by rw [hblock]; rfl⟩
  have hsecond : HasEntry fr 1 (getfcode sampleHost samplePath) 1 :=
    ⟨by omega, by rw [hblock]; rfl, by rw [hblock]; rfl⟩
  refine ⟨⟨hfirst, fun i => ⟨?_, fun hi => ?_⟩, fun s i hentry => ?_⟩, fun i hi hle s hs => ?_⟩
  · rintro ⟨s, hentry⟩
    rcases hentries s i hentry with ⟨-, rfl⟩ | ⟨-, rfl⟩ <;> omega
  · rcases Nat.le_one_iff_eq_zero_or_eq_one.mp hi with rfl | rfl
    · exact ⟨0, hfirst⟩
    · exact ⟨1, hsecond⟩
  · rcases hentries s i hentry with ⟨rfl, rfl⟩ | ⟨rfl, rfl⟩ <;> rw [hblock] <;> decide
  · have hentry := ffindhi_some hs
    rw [u32_of_lt (by omega)] at hentry
    obtain ⟨rfl, rfl⟩ | ⟨rfl, rfl⟩ := hentries s i hentry
    · exact absurd rfl hi.ne'
    · rw [hblock]
      decide

/-- A file is written, and read again after the next boot. -/
theorem boot_after_session_sample :
    ∃ s, run (Session.step sampleHost) (.initial ⟨bootMounted, bootImage, 0⟩)
        [.create samplePath ['f'], .loadh samplePath ['f'], .seek 0 0, .write 0 [1, 2, 3]] =
          .ok s ∧
      fmount ⟨sampleDisk, fun _ => none⟩ (fuloadroot s.vol).image =
        .ok (.mounted (s.vol.root.setCursor 0)) ∧
      (serveAll (Sockets.step sampleHost ⟨sampleDisk, fun _ => none⟩)
          ⟨rewound (fuloadroot s.vol), []⟩ [.openChild samplePath, .read 0 0 2]).map Prod.snd =
        (serveAll (answer (contents sampleHost s.vol)) []
          [.openChild samplePath, .read 0 0 2]).map Prod.snd := by
  have heval : ((run (Session.step sampleHost) (.initial ⟨bootMounted, bootImage, 0⟩)
      [.create samplePath ['f'], .loadh samplePath ['f'], .seek 0 0, .write 0 [1, 2, 3]]).map
        fun s => ((HostTool.checkdisk (fuloadroot s.vol).image).toOption,
          (HostTool.readTable (fuloadroot s.vol).image).toOption, s.vol.root.loc,
          decide ((HostTool.readblocks HostTool.tableEnv (fuloadroot s.vol).image gptLBA
            sizeofMiniGPT).map (fun block => (MiniGPT.decode block).partEntryLoc) = some 2 ∧
              s.vol.root.clusterMap = oneFile ∧ 2 ^ 40 ≤ s.vol.image.size))).toOption =
      some (some true, some [⟨40, 4000, sampleName⟩], 40, true) := by
    decide +kernel
  obtain ⟨s, hrun, hs⟩ := ok_of_eval heval
  obtain ⟨hdisk, hs⟩ := Prod.mk.inj hs
  obtain ⟨htable, hs⟩ := Prod.mk.inj hs
  obtain ⟨hloc, hs⟩ := Prod.mk.inj hs
  obtain ⟨hplace, hmap, hsize⟩ := of_decide_eq_true hs
  have hentries := ok_of_toOption htable
  have hlisted : ListedFirst (fuloadroot s.vol).image s.vol.root.loc :=
    ⟨ok_of_toOption hdisk, [], _, [], hentries, hloc.symm, by decide, by simp⟩
  have hfits : TableFits (fuloadroot s.vol).image := by
    constructor
    · intro block hblock
      rw [hblock] at hplace
      have htwo : (MiniGPT.decode block).partEntryLoc = 2 := Option.some.inj hplace
      omega
    · intro ge hge e he
      rw [hentries] at hge
      cases hge
      rw [List.mem_singleton.mp he]
      decide
  have hblk : s.vol.root.blkSize < 2 ^ 32 := s.vol.root.blkSize_lt
  have hstored := stored_oneFile hmap
  have hadmitted : ∀ op ∈ [Request.openChild samplePath, .read 0 0 2],
      Admitted sampleHost s.vol.root op := by
    intro op hop
    rcases List.mem_pair.mp hop with rfl | rfl
    · intro fb hfind _
      have hzero : ffindhi s.vol.root (getfcode sampleHost samplePath) 0 = some 0 := by
        rw [ffindhi, hmap]
        decide
      obtain rfl := Option.some.inj (hzero.symm.trans hfind)
      exact ⟨1, hstored⟩
    · change s.vol.root.blkSize + 0 + 2 < 2 ^ 64
      omega
  obtain ⟨hmounted, hanswers, -⟩ := boot_after_session sampleHost ⟨sampleDisk, fun _ => none⟩
    fmount_bootImage hrun hlisted hfits bootMounted_holds hsize hadmitted
  exact ⟨s, hrun, hmounted, hanswers⟩

end BlockyOS.Frat.Uefi
