import BlockyOS.HostTool.Mount

/-!
# What a mount reads

`fmount` reads the root block twice, through two environments, and the map once,
through a third.  It succeeds on a partition exactly when these reads do, and
the root it builds is a function of the two buffers.
-/

namespace BlockyOS.HostTool

open BlockyOS.Foundation

/-! ## The partition table -/

theorem sLBA_lt_of_mem {bytes : Bytes} {count : Nat} {e : GPTentry}
    (h : e ∈ gptEntries bytes count) : e.sLBA < 2 ^ 64 := by
  obtain ⟨i, -, rfl⟩ := List.mem_map.mp h
  exact fieldNat_lt _ 32 8

theorem sLBA_lt_of_readTable {img : Image} {ge : List GPTentry} {e : GPTentry}
    (h : readTable img = .ok ge) (hmem : e ∈ ge) : e.sLBA < 2 ^ 64 := by
  unfold readTable at h
  split at h
  case h_1 => cases h
  case h_2 block hblock =>
    simp only at h
    split at h
    case h_1 bytes hbytes =>
      cases h
      exact sLBA_lt_of_mem hmem
    case h_2 =>
      split at h
      case isTrue =>
        cases h
        cases hmem
      case isFalse => cases h

theorem queryparttablefs_ok {img : Image} {ge : List GPTentry} {part : PartDim}
    (h : queryparttablefs img ge = .ok part) (hhigh : part.high ≠ 0) :
    queryfs img part.base = .ok true ∧ ∃ e ∈ ge, e.sLBA = part.base := by
  induction ge with
  | nil =>
      cases h
      exact absurd rfl hhigh
  | cons e ge ih =>
      rw [queryparttablefs] at h
      split at h
      case h_1 => cases h
      case h_2 hquery =>
        cases h
        exact ⟨hquery, e, List.mem_cons_self, rfl⟩
      case h_3 =>
        obtain ⟨hquery, e', hmem, hbase⟩ := ih h
        exact ⟨hquery, e', List.mem_cons_of_mem e hmem, hbase⟩

/--
The partition at `base` is in the table, and no entry before it carries the
signature.
-/
structure ListedFirst (img : Image) (base : Nat) : Prop where
  disk : checkdisk img = .ok true
  listed : ∃ before e after, readTable img = .ok (before ++ e :: after) ∧
    e.sLBA = base ∧ e.eLBA ≠ 0 ∧ ∀ e' ∈ before, queryfs img e'.sLBA = .ok false

theorem queryparttablefs_append {img : Image} {before after : List GPTentry} {e : GPTentry}
    (hbefore : ∀ e' ∈ before, queryfs img e'.sLBA = .ok false)
    (hquery : queryfs img e.sLBA = .ok true) :
    queryparttablefs img (before ++ e :: after) = .ok ⟨e.sLBA, e.eLBA⟩ := by
  induction before with
  | nil => rw [List.nil_append, queryparttablefs, hquery]
  | cons e' before ih =>
      rw [List.cons_append, queryparttablefs, hbefore e' List.mem_cons_self]
      exact ih fun e'' hmem => hbefore e'' (List.mem_cons_of_mem e' hmem)

/-! ## The root block -/

def readSector (img : Image) (base : Nat) : Option Bytes :=
  if seekable (u64 (base * 512)) then img.read (u64 (base * 512)) 512 else none

theorem readblocks_tableEnv {img : Image} {base : Nat} (hbase : base < 2 ^ 64) :
    readblocks tableEnv img (u64 (base + fratRootOffset)) sizeofFsRoot =
      readSector img base := by
  have hpos : u64 (base + fratRootOffset) = base := u64_of_lt hbase
  have hoffset : tableEnv.offset base = u64 (base * 512) := by
    change u64 (0 * 512 + (base - 0) * 512 * 1) = u64 (base * 512)
    simp
  have hspan : tableEnv.span sizeofFsRoot = 512 := by decide
  have hpart : ¬ base < tableEnv.partition := Nat.not_lt_zero base
  rw [hpos, readblocks, if_neg hpart, hoffset, hspan, readSector]

theorem readblocks_partition {img : Image} {base : Nat} (hbase : base < 2 ^ 64) :
    readblocks { tableEnv with partition := base } img (u64 (base + fratRootOffset))
        sizeofFsRoot = readSector img base := by
  have hpos : u64 (base + fratRootOffset) = base := u64_of_lt hbase
  have hoffset : RawEnv.offset { tableEnv with partition := base } base =
      u64 (base * 512) := by
    change u64 (base * 512 + (base - base) * 512 * 1) = u64 (base * 512)
    simp
  have hspan : RawEnv.span { tableEnv with partition := base } sizeofFsRoot = 512 := by
    change tableEnv.span sizeofFsRoot = 512
    decide
  have hpart : ¬ base < RawEnv.partition { tableEnv with partition := base } :=
    Nat.lt_irrefl base
  rw [hpos, readblocks, if_neg hpart, hoffset, hspan, readSector]

theorem queryfs_eq {img : Image} {base : Nat} (hbase : base < 2 ^ 64) :
    queryfs img base =
      match readSector img base with
      | none => .error .nullDeref
      | some sector => .ok ((FsRoot.decode sector).signature = fratSig) := by
  have hread : readblocks tableEnv img (u64 (base + fratRootOffset)) sizeofFsRoot =
      readSector img base := readblocks_tableEnv hbase
  cases hsector : readSector img base with
  | none => rw [queryfs, hread, hsector]
  | some sector => rw [queryfs, hread, hsector]

/-! ## The mounted root -/

def mapEnv (base confBlockSize : Nat) : RawEnv :=
  setblocksize { tableEnv with partition := base } confBlockSize

theorem mapEnv_eq {base conf : Nat} (hconf : 0 < conf) (hfit : conf + 511 < 2 ^ 32) :
    mapEnv base conf = startup base conf :=
  @setblocksize_startup _ _ 512 hconf hfit

/-- The map buffer a mount of `root` reads. -/
def readMap (img : Image) (base : Nat) (root : FsRoot) : Option Bytes :=
  readblocks (mapEnv base root.confBlockSize.toNat) img
    (clusterMapPos base root.confLogSectors.toNat root.confBlockSize.toNat)
    root.confClusterSize.toNat

theorem fmount_mounted {img : Image} {fr : ConfFsroot} (h : fmount img = .ok (.mounted fr)) :
    ∃ sector map, readSector img fr.loc = some sector ∧
      (FsRoot.decode sector).signature = fratSig ∧
      readMap img fr.loc (FsRoot.decode sector) = some map ∧
      fr = mountedRoot fr.loc (FsRoot.decode sector) map := by
  unfold fmount at h
  split at h
  case h_1 => cases h
  case h_2 => cases h
  case h_3 =>
    split at h
    case h_1 => cases h
    case h_2 ge htable =>
      split at h
      case h_1 => cases h
      case h_2 part hpart =>
        split at h
        case isTrue => cases h
        case isFalse hhigh =>
          obtain ⟨hquery, e, hmem, hbase⟩ := queryparttablefs_ok hpart hhigh
          have hlt : part.base < 2 ^ 64 := by
            rw [← hbase]
            exact sLBA_lt_of_readTable htable hmem
          simp only [readblocks_partition hlt] at h
          split at h
          case h_1 => cases h
          case h_2 sector hsector =>
            rw [queryfs_eq hlt, hsector] at hquery
            have hsig : (FsRoot.decode sector).signature = fratSig := by
              simpa using hquery
            split at h
            case h_1 => cases h
            case h_2 map hmap =>
              cases h
              exact ⟨sector, map, hsector, hsig, hmap, rfl⟩

theorem fmount_listed {img : Image} {base : Nat} {sector map : Bytes}
    (hlisted : ListedFirst img base) (hsector : readSector img base = some sector)
    (hsig : (FsRoot.decode sector).signature = fratSig)
    (hmap : readMap img base (FsRoot.decode sector) = some map) :
    fmount img = .ok (.mounted (mountedRoot base (FsRoot.decode sector) map)) := by
  obtain ⟨before, e, after, htable, rfl, hhigh, hbefore⟩ := hlisted.listed
  have hlt : e.sLBA < 2 ^ 64 := sLBA_lt_of_readTable htable (by simp)
  have hquery : queryfs img e.sLBA = .ok true := by
    rw [queryfs_eq hlt, hsector]
    simpa using hsig
  have hpart := @queryparttablefs_append _ _ after _ hbefore hquery
  rw [readMap, mapEnv] at hmap
  simp only [fmount, hlisted.disk, htable, hpart, if_neg hhigh, readblocks_partition hlt,
    hsector, hmap]

/-! ## A small disk -/

/-- A disk of two megabytes whose table lists one partition, from sector 40 to `high`. -/
def sampleDisk (high : Nat) : Image :=
  ((Image.blank (2 ^ 21)).write 512
      (gptSig ++ (zeros 64 ++ (leBytes 8 2 ++ leBytes 4 1)))).write 1024
    (zeros 32 ++ (leBytes 8 40 ++ (leBytes 8 high ++ zeros 80)))

/-- The partition has no name. -/
def sampleName : Bytes := zeros gptNameSize

end BlockyOS.HostTool
