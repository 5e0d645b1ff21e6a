import BlockyOS.Frat.LoaderFiles
import BlockyOS.HostTool.Persistence

/-!
# What the loader mounts

Wherever a position is computed without wrapping, the block layers of the tool and
of the loader read and write the same bytes.  So the loader mounts the root that
the tool mounts.
-/

namespace BlockyOS.Frat.Uefi

open BlockyOS.Foundation
open BlockyOS.HostTool (Fault ConfFsroot Volume Mounted MiniGPT GPTentry PartDim FsRoot blockSpan
  MapFits mapEnv mapEnv_eq clusterMapPos mountedRoot mapBytes gptLBA gptEntries sizeofMiniGPT
  sizeofGPTentry sizeofFsRoot fratRootOffset seekable sLBA_lt_of_readTable)

/-! ## Blocks -/

section Blocks

variable {base conf pos bytes : Nat} (hconf : conf ≤ 2 ^ 32 - 512)
  (hfit : base * 512 + (pos - base) * blockSpan conf < 2 ^ 63)

include hconf hfit

theorem loaderTransfer_eq :
    loaderTransfer base conf pos bytes =
      ⟨base * 512 + (pos - base) * blockSpan conf, (HostTool.startup base conf).span bytes⟩ := by
  have hspan : blockSpan conf = loaderSectors conf * 512 := by
    rw [blockSpan, loaderSectors_eq hconf, Nat.mul_comm]
  have hsum : (base + (pos - base) * loaderSectors conf) * 512 =
      base * 512 + (pos - base) * blockSpan conf := by
    rw [hspan]
    ring
  have hlba : (loaderEnv base conf).lba pos = base + (pos - base) * loaderSectors conf := by
    simp only [RawEnv.lba, loaderEnv_isPart, loaderEnv_partition, loaderEnv_calcBlock,
      Bool.false_eq_true, if_false]
    exact u64_of_lt (by omega)
  rw [loaderTransfer, hlba, hsum, span_startup_eq hconf]

variable (hbase : base ≤ pos)

include hbase

theorem hostTransfer_startup :
    hostTransfer (HostTool.startup base conf) pos bytes =
      some (loaderTransfer base conf pos bytes) := by
  have hoff : (HostTool.startup base conf).offset pos =
      base * 512 + (pos - base) * blockSpan conf := HostTool.offset_startup (by omega)
  have hseek : seekable (base * 512 + (pos - base) * blockSpan conf) = true :=
    decide_eq_true hfit
  rw [hostTransfer, if_neg (by rw [HostTool.startup_partition]; omega), hoff, if_pos hseek,
    loaderTransfer_eq hconf hfit]

variable (hpos : 0 < bytes) (hlt : bytes < 2 ^ 63)

include hpos hlt

theorem readblocks_agrees (img : Image) :
    readblocks (some (loaderEnv base conf)) img pos bytes =
      HostTool.readblocks (HostTool.startup base conf) img pos bytes := by
  have hsectors := loaderSectors_lt conf
  have hsize : (loaderEnv base conf).allocSize bytes ≠ 0 := by
    rw [allocSize_loaderEnv, ne_eq,
      roundedBytes_eq_zero_iff (loaderSectors_pos conf) (by omega) (by omega)]
    omega
  rw [readblocks_eq, hostTransfer_startup hconf hfit hbase, readblocks, Option.bind_some,
    readTransfer, if_neg (by rw [loaderEnv_partition]; omega), if_neg hsize]
  rfl

theorem writeblocks_agrees {img : Image} (data : Bytes)
    (hin : base * 512 + (pos - base) * blockSpan conf + (HostTool.startup base conf).span bytes ≤
      img.size) :
    writeblocks (some (loaderEnv base conf)) img data pos bytes =
      HostTool.writeblocks (HostTool.startup base conf) img data pos bytes := by
  have hsectors := loaderSectors_lt conf
  have hsize : (loaderEnv base conf).nBlocks bytes ≠ 0 := by
    intro hzero
    have halloc : (loaderEnv base conf).allocSize bytes = 0 := by
      rw [RawEnv.allocSize, hzero, Nat.zero_mul]
      rfl
    rw [allocSize_loaderEnv,
      roundedBytes_eq_zero_iff (loaderSectors_pos conf) (by omega) (by omega)] at halloc
    omega
  have htransfer : writeTransfer (loaderEnv base conf) pos bytes =
      some (loaderTransfer base conf pos bytes) := by
    rw [writeTransfer, if_neg (by rw [loaderEnv_partition]; omega), if_neg hsize]
    rfl
  rw [writeblocks_eq, hostTransfer_startup hconf hfit hbase, writeblocks, Option.bind_some,
    htransfer, loaderTransfer_eq hconf hfit]
  simp only [if_pos hin, Option.elim_some]

end Blocks

/-! ## The partition table -/

/-- The table and the partitions it lists lie where a disk can have them. -/
structure TableFits (img : Image) : Prop where
  table : ∀ block, HostTool.readblocks HostTool.tableEnv img gptLBA sizeofMiniGPT = some block →
    (MiniGPT.decode block).partEntryLoc < 2 ^ 54
  entries : ∀ ge, HostTool.readTable img = .ok ge → ∀ e ∈ ge, e.sLBA < 2 ^ 54

section Tables

variable (M : Machine) {img : Image}

theorem startup_eq (base conf : Nat) :
    startup M.disk.handles base conf = some (loaderEnv base conf) :=
  M.disk.startup_eq base conf

theorem readblocks_table {pos bytes : Nat} (hpos : pos < 2 ^ 54) (hbytes : 0 < bytes)
    (hlt : bytes < 2 ^ 63) :
    readblocks (tableEnv M) img pos bytes =
      HostTool.readblocks HostTool.tableEnv img pos bytes := by
  rw [tableEnv, startup_eq]
  exact readblocks_agrees (by decide) (by rw [show blockSpan 512 = 512 by decide]; omega)
    (Nat.zero_le pos) hbytes hlt img

theorem checkdisk_agrees : checkdisk M img = HostTool.checkdisk img := by
  have hread := @readblocks_table M img gptLBA sizeofMiniGPT (by decide) (by decide) (by decide)
  cases hblock : HostTool.readblocks HostTool.tableEnv img gptLBA sizeofMiniGPT with
  | none => rw [checkdisk, HostTool.checkdisk, hread, hblock]
  | some block => rw [checkdisk, HostTool.checkdisk, hread, hblock]

theorem readTable_agrees (htable : TableFits img) : readTable M img = HostTool.readTable img := by
  have hread := @readblocks_table M img gptLBA sizeofMiniGPT (by decide) (by decide) (by decide)
  rw [readTable, HostTool.readTable, hread]
  cases hblock : HostTool.readblocks HostTool.tableEnv img gptLBA sizeofMiniGPT with
  | none => rfl
  | some block =>
      have hloc := htable.table block hblock
      have hn : (MiniGPT.decode block).nPartEntries < 2 ^ 32 := fieldNat_lt block 80 4
      dsimp only
      by_cases hzero : (MiniGPT.decode block).nPartEntries = 0
      · -- neither looks at the table then, whether it was read or not
        generalize readblocks (tableEnv M) img _ _ = ge
        generalize HostTool.readblocks HostTool.tableEnv img _ _ = ge'
        rw [hzero]
        cases ge <;> cases ge' <;> rfl
      · have hentries := @readblocks_table M img _
          ((MiniGPT.decode block).nPartEntries * sizeofGPTentry) hloc
          (by unfold sizeofGPTentry; omega) (by unfold sizeofGPTentry; omega)
        cases hge : HostTool.readblocks HostTool.tableEnv img (MiniGPT.decode block).partEntryLoc
          ((MiniGPT.decode block).nPartEntries * sizeofGPTentry) with
        | none => rw [hentries, hge]
        | some ge => rw [hentries, hge]

theorem queryfs_agrees {base : Nat} (hbase : base < 2 ^ 54) :
    queryfs M img base = HostTool.queryfs img base := by
  have hpos : u64 (base + fratRootOffset) = base :=
    u64_of_lt (show base + 0 < 2 ^ 64 by omega)
  have hread := @readblocks_table M img (u64 (base + fratRootOffset)) sizeofFsRoot
    (by rw [hpos]; exact hbase) (by decide) (by decide)
  cases hblock : HostTool.readblocks HostTool.tableEnv img (u64 (base + fratRootOffset))
    sizeofFsRoot with
  | none => rw [queryfs, HostTool.queryfs, hread, hblock]
  | some block => rw [queryfs, HostTool.queryfs, hread, hblock]

theorem queryparttablefs_agrees {ge : List GPTentry} (h : ∀ e ∈ ge, e.sLBA < 2 ^ 54) :
    queryparttablefs M img ge = HostTool.queryparttablefs img ge := by
  induction ge with
  | nil => rfl
  | cons e ge ih =>
      obtain ⟨hfirst, hrest⟩ := List.forall_mem_cons.mp h
      have hquery := @queryfs_agrees M img _ hfirst
      cases hfound : HostTool.queryfs img e.sLBA with
      | error err => rw [queryparttablefs, HostTool.queryparttablefs, hquery, hfound]
      | ok found =>
          cases found with
          | true => rw [queryparttablefs, HostTool.queryparttablefs, hquery, hfound]
          | false =>
              rw [queryparttablefs, HostTool.queryparttablefs, hquery, hfound]
              exact ih hrest

end Tables

/-! ## The root -/

theorem partitionEnv_eq (M : Machine) (base : Nat) :
    partitionEnv M base = some (loaderEnv base 512) := by
  rw [partitionEnv, tableEnv, startup_eq]
  rfl

theorem fmount_reads {img : Image} {fr : ConfFsroot}
    (h : HostTool.fmount img = .ok (.mounted fr)) :
    ∃ ge part block map, HostTool.checkdisk img = .ok true ∧
      HostTool.readTable img = .ok ge ∧ HostTool.queryparttablefs img ge = .ok part ∧
      part.high ≠ 0 ∧
      HostTool.readblocks (HostTool.startup part.base 512) img (u64 (part.base + fratRootOffset))
        sizeofFsRoot = some block ∧
      HostTool.readMap img part.base (FsRoot.decode block) = some map ∧
      fr = mountedRoot part.base (FsRoot.decode block) map := by
  unfold HostTool.fmount at h
  split at h
  case h_1 => cases h
  case h_2 => cases h
  case h_3 hcheck =>
    split at h
    case h_1 => cases h
    case h_2 ge htable =>
      split at h
      case h_1 => cases h
      case h_2 part hquery =>
        split at h
        case isTrue => cases h
        case isFalse hhigh =>
          dsimp only at h
          split at h
          case h_1 => cases h
          case h_2 block hblock =>
            split at h
            case h_1 => cases h
            case h_2 map hmap =>
              cases h
              exact ⟨ge, part, block, map, hcheck, htable, hquery, hhigh, hblock, hmap, rfl⟩

theorem fmount_agrees (M : Machine) {img : Image} {fr : ConfFsroot} (htable : TableFits img)
    (hmount : HostTool.fmount img = .ok (.mounted fr)) (hfits : MapFits fr)
    (hmap : 0 < fr.clusterSize) : fmount M img = .ok (.mounted fr) := by
  obtain ⟨ge, part, block, map, hcheck, hge, hquery, hhigh, hblock, hread, rfl⟩ :=
    fmount_reads hmount
  generalize hroot : FsRoot.decode block = root at *
  have hsize : 512 ≤ root.confBlockSize.toNat := hfits.block
  have hlt : 2 * root.confBlockSize.toNat < 2 ^ 32 := hfits.blkSize_lt
  have hdisk : (mountedRoot part.base root map).mapOffset +
      (HostTool.startup part.base root.confBlockSize.toNat).span root.confClusterSize.toNat <
        2 ^ 63 := hfits.disk
  have hplace : clusterMapPos part.base root.confLogSectors.toNat root.confBlockSize.toNat =
      part.base + (root.confLogSectors.toNat + 2) * root.confBlockSize.toNat :=
    hfits.clusterMapPos_eq
  have hoffset : part.base * 512 +
      (clusterMapPos part.base root.confLogSectors.toNat root.confBlockSize.toNat - part.base) *
        blockSpan root.confBlockSize.toNat = (mountedRoot part.base root map).mapOffset :=
    hfits.offset_map
  have hbase : part.base * 512 < 2 ^ 63 := by omega
  have hstart : u64 (part.base + fratRootOffset) = part.base :=
    u64_of_lt (show part.base + 0 < 2 ^ 64 by omega)
  have hsector : readblocks (partitionEnv M part.base) img (u64 (part.base + fratRootOffset))
      sizeofFsRoot = some block := by
    have hfirst : part.base * 512 + (part.base - part.base) * blockSpan 512 < 2 ^ 63 := by
      rw [Nat.sub_self, Nat.zero_mul, Nat.add_zero]
      exact hbase
    rw [partitionEnv_eq, ← hblock, hstart]
    exact readblocks_agrees (by decide) hfirst (Nat.le_refl _) (by decide) (by decide) img
  have hconf : root.confBlockSize.toNat ≤ 2 ^ 32 - 512 := by omega
  have henv : (partitionEnv M part.base).map (fun re =>
      setblocksize re root.confBlockSize.toNat) =
        some (loaderEnv part.base root.confBlockSize.toNat) := by
    rw [partitionEnv_eq, Option.map_some, setblocksize_loaderEnv (by omega) hconf]
  have hmapped : readblocks ((partitionEnv M part.base).map fun re =>
      setblocksize re root.confBlockSize.toNat) img
        (clusterMapPos part.base root.confLogSectors.toNat root.confBlockSize.toNat)
        root.confClusterSize.toNat = some map := by
    have hclusters := root.confClusterSize.isLt
    have hpositive : 0 < root.confClusterSize.toNat := hmap
    rw [henv, ← hread, HostTool.readMap, mapEnv_eq (by omega) (by omega)]
    exact readblocks_agrees hconf (by rw [hoffset]; omega) (by omega) hpositive (by omega) img
  have hentries := htable.entries ge hge
  rw [fmount, checkdisk_agrees, hcheck, readTable_agrees M htable, hge]
  dsimp only
  rw [queryparttablefs_agrees M hentries, hquery]
  dsimp only
  rw [if_neg hhigh, hsector]
  dsimp only
  rw [hroot, hmapped]

end BlockyOS.Frat.Uefi
