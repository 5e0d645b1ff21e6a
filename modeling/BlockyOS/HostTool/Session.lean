import BlockyOS.Foundation.Runs
import BlockyOS.HostTool.Directory

/-!
# Sessions

A mounted volume with the handles that are open, and the calls a user of the
file system makes on it.  A handle stays open after the item it was opened on
is removed, as the pointers of the tool do.
-/

namespace BlockyOS.HostTool

open BlockyOS.Foundation

structure Session where
  vol : Volume
  files : List FHandle
  dirs : List DirHandle

inductive Op where
  | create (path : Path) (flags : List Char)
  | loadh (path : Path) (args : List Char)
  | loadhdir (path : Path) (args : List Char)
  | write (handle : Nat) (data : Bytes)
  | read (handle nbytes : Nat)
  | seek (handle progress : Nat)
  | remove (path : Path)
  | list (handle index : Nat)
  | unloaddir (handle : Nat)
  | unloadh (handle : Nat)

/-- A call on an open file; naming a handle that is not open is a fault of the caller. -/
def Session.onFile (s : Session) (handle : Nat)
    (call : FHandle → Except Fault (FHandle × Volume)) : Except Fault Session :=
  match s.files[handle]? with
  | none => .error .nullDeref
  | some fh =>
      match call fh with
      | .error e => .error e
      | .ok (fh, vol) => .ok { s with vol := vol, files := s.files.set handle fh }

def Session.onDir (s : Session) (handle : Nat)
    (call : DirHandle → Except Fault (Option DirHandle × Volume)) : Except Fault Session :=
  match s.dirs[handle]? with
  | none => .error .nullDeref
  | some dir =>
      match call dir with
      | .error e => .error e
      | .ok (some dir, vol) => .ok { s with vol := vol, dirs := s.dirs.set handle dir }
      | .ok (none, vol) => .ok { s with vol := vol, dirs := s.dirs.eraseIdx handle }

theorem Session.onFile_ok {s s' : Session} {handle : Nat}
    {call : FHandle → Except Fault (FHandle × Volume)} (h : s.onFile handle call = .ok s') :
    ∃ fh fh' vol, s.files[handle]? = some fh ∧ call fh = .ok (fh', vol) ∧
      s' = { s with vol := vol, files := s.files.set handle fh' } := by
  unfold Session.onFile at h
  cases hget : s.files[handle]? with
  | none =>
      rw [hget] at h
      cases h
  | some fh =>
      rw [hget] at h
      cases hcall : call fh with
      | error e => simp [hcall] at h
      | ok result =>
          obtain ⟨fh', vol⟩ := result
          simp only [hcall, Except.ok.injEq] at h
          exact ⟨fh, fh', vol, rfl, hcall, h.symm⟩

theorem Session.onDir_ok {s s' : Session} {handle : Nat}
    {call : DirHandle → Except Fault (Option DirHandle × Volume)}
    (h : s.onDir handle call = .ok s') :
    ∃ dir dir', s.dirs[handle]? = some dir ∧ call dir = .ok (dir', s'.vol) ∧
      s'.files = s.files := by
  unfold Session.onDir at h
  cases hget : s.dirs[handle]? with
  | none =>
      rw [hget] at h
      cases h
  | some dir =>
      rw [hget] at h
      cases hcall : call dir with
      | error e => simp [hcall] at h
      | ok result =>
          obtain ⟨dir', vol⟩ := result
          cases dir' with
          | none =>
              simp only [hcall, Except.ok.injEq] at h
              subst h
              exact ⟨dir, none, rfl, hcall, rfl⟩
          | some dir' =>
              simp only [hcall, Except.ok.injEq] at h
              subst h
              exact ⟨dir, some dir', rfl, hcall, rfl⟩

def Session.step (E : Host) (s : Session) : Op → Except Fault Session
  | .create path flags => (fcreate E s.vol path flags).map fun vol => { s with vol := vol }
  | .loadh path args =>
      (floadh E s.vol path args).map fun (vol, fh) =>
        { s with vol := vol, files := s.files ++ fh.toList }
  | .loadhdir path args =>
      (floadhdir E s.vol path args).map fun (vol, dir) =>
        { s with vol := vol, dirs := s.dirs ++ dir.toList }
  | .write handle data =>
      s.onFile handle fun fh =>
        (fwrite E s.vol fh data.length (some data)).map fun (_, fh, vol) => (fh, vol)
  | .read handle nbytes =>
      s.onFile handle fun fh =>
        (fread E s.vol fh nbytes).map fun (_, _, fh, vol) => (fh, vol)
  | .seek handle progress =>
      s.onFile handle fun fh => .ok (fseek s.vol.root fh progress, s.vol)
  | .remove path =>
      (ffremove E s.vol.root path).map fun fr => { s with vol := { s.vol with root := fr } }
  | .list handle index =>
      s.onDir handle fun dir =>
        (fdirlist E s.vol dir index).map fun (dir, _, _) => (some dir, s.vol)
  | .unloaddir handle =>
      s.onDir handle fun dir => (fuloaddir s.vol dir).map fun vol => (none, vol)
  | .unloadh handle =>
      match s.files[handle]? with
      | none => .error .nullDeref
      | some _ => .ok { s with vol := fuloadh s.vol, files := s.files.eraseIdx handle }

/-- A volume just mounted, with no handle open. -/
def Session.initial (vol : Volume) : Session := ⟨vol, [], []⟩

/-! ## A small volume -/

/-- The digests of a few short paths, and a clock that stands still. -/
def sampleHost : Host where
  blake2b s :=
    if s = [0x61] then (0x7f8773936e5ec327, 0x7e49464e4662e529)
    else if s = [0x62] then (0xd12c37534c2b1796, 0x1803fe1b82dcad0f)
    else if s = [0x61, 0x2F, 0x62] then (0x97c5a22022a65a57, 0xacacb669d2f8def5)
    else (1, 1)
  localtime _ := ⟨0, 0, 0, 0⟩

/-- The path `a`. -/
def samplePath : Path := ⟨[0x61], by decide⟩

theorem length_fratSig : fratSig.length = 16 := rfl

def sampleRoot (map : List FsBlock) (h : sizeofFsBlock * map.length < 2 ^ 32) :
    ConfFsroot where
  loc := 40
  root :=
    { signature := fratSig
      confLogSectors := 1
      confBlockSize := 512
      confClusterSize := BitVec.ofNat 32 (sizeofFsBlock * map.length)
      versionAndExtension := versionAndExtension 1 0
      length_signature := length_fratSig
      length_versionAndExtension := length_versionAndExtension _ _ }
  lastClusterAlloc := 0
  nLogSectors := 1
  nClusterSectors := sizeofFsBlock * map.length / 512
  clusterSize := sizeofFsBlock * map.length
  nClusterItems := map.length
  clusterMap := map
  slack := []
  length_clusterMap := rfl
  size_clusterMap := rfl
  size_lt := h

/-- A volume with `slots` free slots on an image of two megabytes. -/
def sampleVolume (slots : Nat) (h : sizeofFsBlock * slots < 2 ^ 32) : Volume where
  root := sampleRoot (List.replicate slots FsBlock.zero) (by simpa using h)
  image := .blank (2 ^ 21)
  ticks := 0

end BlockyOS.HostTool
