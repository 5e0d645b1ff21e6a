import BlockyOS.Foundation.Loops
import BlockyOS.Foundation.Trails
import BlockyOS.Foundation.Words
import BlockyOS.Kernel.Macros

/-!
# The scatter list of an AHCI transfer

`AHCIReadBytes` and `AHCIWriteBytes` describe the buffer of a transfer by entries of
eight kilobytes each, and count them in units of sixteen bytes.
-/

namespace BlockyOS.Kernel

open BlockyOS.Foundation

namespace AHCI

/-- `AHCI_TRANSFERBLOCKSIZE`. -/
def transferBlockSize : Nat := 8 * 1024

/-- `HBAPhysicalRegionDescriptorEntry`. -/
structure RegionEntry where
  dataBaseAddress : Nat
  dataByteCount : Nat
  completionInterruptEnable : Bool
  deriving DecidableEq, Repr

/-- The bytes of the entry's region, which are counted from zero. -/
def RegionEntry.length (e : RegionEntry) : Nat := e.dataByteCount + 1

structure DevicePort where
  commandListBaseLow : Nat
  commandListBaseHigh : Nat
  sataActive : BitVec 32
  commandIssue : BitVec 32

structure MemorySpace where
  numberOfPorts : Nat
  numberOfCommandSlots : Nat
  portImplementedBitmask : BitVec 32
  mapVirtual : Nat → Nat
  mapPhysical : Nat → Nat

/-- `sizeof(HBACommandHeader)`. -/
def headerSize : Nat := 32

/-! ## The command slot -/

structure SlotCall where
  pointer : Nat
  returned : Nat

/--
One turn of the search for a slot.  The bound is compared with the pointer to the slot
number; a search that ends by it returns nothing.
-/
def slotTurn (ms : MemorySpace) (port : DevicePort) (call : SlotCall) (slot : Nat) :
    Nat ⊕ (Nat × Nat) :=
  if ms.numberOfCommandSlots ≤ call.pointer then .inr (call.returned, slot)
  else if flagCheck (port.sataActive >>> slot) 0 && flagCheck (port.commandIssue >>> slot) 0 then
    .inr (ms.mapVirtual (port.commandListBaseHigh <<< 32 + port.commandListBaseLow * headerSize +
      slot * headerSize), slot)
  else .inl ((slot + 1) % 2 ^ 32)

/-- `AHCISearchOpenCommandSlot`: the header, and the slot number behind the call. -/
def searchOpenCommandSlot (fuel : Nat) (ms : MemorySpace) (port : DevicePort) (call : SlotCall) :
    Option (Nat × Nat) :=
  follow (slotTurn ms port call) fuel 0

/-! ## The entries -/

def prdTableLength (bytes : Nat) : Nat := ((bytes - 1) >>> 4 % 2 ^ 16 + 1) % 2 ^ 16

def entryTurn (ms : MemorySpace) (out cc : Nat) (s : Nat × List RegionEntry) :
    Nat × List RegionEntry :=
  (if transferBlockSize < s.1 then s.1 - transferBlockSize else 0,
    s.2 ++ [⟨ms.mapPhysical (out + u32 (cc * transferBlockSize)),
      min (transferBlockSize - 1) s.1, true⟩])

def entries (ms : MemorySpace) (out bytes : Nat) : List RegionEntry :=
  (sweep (entryTurn ms out) (prdTableLength bytes) 0 (bytes, [])).2

/-- A command as its header, its table and its slot describe it. -/
structure Transfer where
  header : Nat
  slot : Nat
  writeFlag : Bool
  prdTableLength : Nat
  entries : List RegionEntry
  deriving DecidableEq, Repr

/--
The body that the two functions share.  `info` is what `descinfo` answers for the buffer,
its `free` flag and its size; nothing is built where the function returns early.
-/
def transfer (writeFlag : Bool) (fuel : Nat) (ms : MemorySpace) (port : DevicePort)
    (call : SlotCall) (info : Bool × Nat) (device bytes out : Nat) : Option Transfer :=
  if info.1 && decide (info.2 < bytes) then none
  else if ms.numberOfPorts < device then none
  else if !ms.portImplementedBitmask.getLsbD device then none
  else do
    let (header, slot) ← searchOpenCommandSlot fuel ms port call
    if header = 0 then none
    else some ⟨header, slot, writeFlag, AHCI.prdTableLength bytes, AHCI.entries ms out bytes⟩

/-- `AHCIReadBytes`. -/
def readBytes := transfer false

/-- `AHCIWriteBytes`. -/
def writeBytes := transfer true

/-! ## What a transfer has to be -/

/-- The regions follow one another from `out` on and cover `bytes` bytes. -/
def Tiles (ms : MemorySpace) : Nat → Nat → List RegionEntry → Prop
  | _, bytes, [] => bytes = 0
  | out, bytes, e :: rest =>
      e.dataBaseAddress = ms.mapPhysical out ∧ e.length ≤ bytes ∧
        Tiles ms (out + e.length) (bytes - e.length) rest

structure Scatters (ms : MemorySpace) (port : DevicePort) (out bytes : Nat) (t : Transfer) :
    Prop where
  tiles : Tiles ms out bytes t.entries
  counted : t.entries.length = t.prdTableLength
  slot_lt : t.slot < ms.numberOfCommandSlots
  inactive : port.sataActive.getLsbD t.slot = false
  unissued : port.commandIssue.getLsbD t.slot = false

variable {ms : MemorySpace} {port : DevicePort} {call : SlotCall}

theorem sum_of_tiles {out bytes : Nat} {es : List RegionEntry} (h : Tiles ms out bytes es) :
    (es.map RegionEntry.length).sum = bytes := by
  induction es generalizing out bytes with
  | nil => exact h.symm
  | cons e rest ih =>
      obtain ⟨-, hle, hrest⟩ := h
      rw [List.map_cons, List.sum_cons, ih hrest]
      exact Nat.add_sub_cancel' hle

/-! ## The slot used -/

/-- A mask of zero is contained in every word, so that no bit is tested. -/
theorem flagCheck_false (a : BitVec 32) : flagCheck a 0 = true := by
  have hand : a &&& 0 = 0 := BitVec.and_zero
  rw [flagCheck, hand]
  rfl

theorem searchOpenCommandSlot_eq (fuel : Nat) :
    searchOpenCommandSlot (fuel + 1) ms port call =
      some (if ms.numberOfCommandSlots ≤ call.pointer then call.returned
        else ms.mapVirtual (port.commandListBaseHigh <<< 32 + port.commandListBaseLow * headerSize),
        0) := by
  have hturn : slotTurn ms port call 0 =
      .inr (if ms.numberOfCommandSlots ≤ call.pointer then call.returned
        else ms.mapVirtual (port.commandListBaseHigh <<< 32 + port.commandListBaseLow * headerSize),
        0) := by
    rw [slotTurn, flagCheck_false, flagCheck_false, Nat.zero_mul, Nat.add_zero]
    split <;> rfl
  exact follow_of_answer hturn fuel

/-! ## The length of the scatter list -/

/-- What the entries written before turn `k` cover. -/
structure Covers (bytes k : Nat) (s : Nat × List RegionEntry) : Prop where
  left : s.1 = bytes - transferBlockSize * k
  length : s.2.length = k
  exactly : transferBlockSize * k ≤ bytes →
    (s.2.map RegionEntry.length).sum = transferBlockSize * k
  beyond : bytes < transferBlockSize * k → bytes < (s.2.map RegionEntry.length).sum

theorem covers_entryTurn {out bytes k : Nat} {s : Nat × List RegionEntry} (h : Covers bytes k s) :
    Covers bytes (k + 1) (entryTurn ms out k s) := by
  obtain ⟨hleft, hlength, hexactly, hbeyond⟩ := h
  have hsum : ((entryTurn ms out k s).2.map RegionEntry.length).sum =
      (s.2.map RegionEntry.length).sum + (min (transferBlockSize - 1) s.1 + 1) := by
    rw [entryTurn, List.map_append, List.sum_append]
    rfl
  rw [transferBlockSize] at hleft hexactly hbeyond hsum
  refine ⟨?_, ?_, fun hle => ?_, fun hlt => ?_⟩
  · rw [entryTurn, transferBlockSize]
    dsimp only
    split <;> omega
  · rw [entryTurn, List.length_append, hlength]
    rfl
  · rw [transferBlockSize] at hle ⊢
    rw [hsum, hexactly (by omega)]
    omega
  · rw [transferBlockSize] at hlt
    rw [hsum]
    rcases Nat.lt_or_ge bytes (8 * 1024 * k) with hbefore | hthere
    · have := hbeyond hbefore
      omega
    · rw [hexactly hthere]
      omega

theorem covers_entries (ms : MemorySpace) (out bytes : Nat) :
    ∃ left, Covers bytes (prdTableLength bytes) (left, entries ms out bytes) := by
  have hstart : Covers bytes 0 (bytes, []) :=
    ⟨rfl, rfl, fun _ => rfl, fun h => absurd h (Nat.not_lt_zero bytes)⟩
  have hrun := sweep_invariant (n := prdTableLength bytes) hstart
    fun k s _ _ (h : Covers bytes k s) => (covers_entryTurn h : Covers _ _ (entryTurn ms out k s))
  rw [Nat.zero_add] at hrun
  exact ⟨_, hrun⟩

theorem blocks_ne {bytes : Nat} (h : 0 < bytes) :
    transferBlockSize * prdTableLength bytes ≠ bytes := by
  rw [transferBlockSize, prdTableLength, Nat.shiftRight_eq_div_pow]
  omega

theorem sum_entries_ne (ms : MemorySpace) (out : Nat) {bytes : Nat} (h : 0 < bytes) :
    ((entries ms out bytes).map RegionEntry.length).sum ≠ bytes := by
  obtain ⟨left, hcovers⟩ := covers_entries ms out bytes
  intro hsum
  rcases Nat.lt_or_ge bytes (transferBlockSize * prdTableLength bytes) with hlt | hle
  · exact Nat.ne_of_gt (hcovers.beyond hlt) hsum
  · exact blocks_ne h ((hcovers.exactly hle).symm.trans hsum)

theorem entries_of_transfer {writeFlag : Bool} {fuel device bytes out : Nat} {info : Bool × Nat}
    {t : Transfer} (h : transfer writeFlag fuel ms port call info device bytes out = some t) :
    t.entries = entries ms out bytes ∧ t.prdTableLength = prdTableLength bytes ∧ t.slot = 0 := by
  rw [transfer] at h
  split at h
  · cases h
  · split at h
    · cases h
    · split at h
      · cases h
      · obtain ⟨⟨header, slot⟩, hsearch, hrest⟩ := Option.bind_eq_some_iff.mp h
        dsimp only at hrest
        split at hrest
        · cases hrest
        · obtain rfl := Option.some.inj hrest
          refine ⟨rfl, rfl, ?_⟩
          cases fuel with
          | zero => cases hsearch
          | succ fuel =>
              rw [searchOpenCommandSlot_eq] at hsearch
              exact (congrArg Prod.snd (Option.some.inj hsearch)).symm

/-- No transfer is described by the entries built for it. -/
theorem transfer_never_scatters {fuel device bytes out : Nat} {info : Bool × Nat} {t : Transfer}
    (hbytes : 1 ≤ bytes)
    (h : readBytes fuel ms port call info device bytes out = some t ∨
      writeBytes fuel ms port call info device bytes out = some t) :
    ¬ Scatters ms port out bytes t := by
  intro hscatters
  have hentries : t.entries = entries ms out bytes := by
    rcases h with h | h
    · exact (entries_of_transfer h).1
    · exact (entries_of_transfer h).1
  have hsum := sum_of_tiles hscatters.tiles
  rw [hentries] at hsum
  exact sum_entries_ne ms out hbytes hsum

/-! ### A sector -/

/-- A controller with one port, and memory mapped where it is. -/
def onePort : MemorySpace where
  numberOfPorts := 1
  numberOfCommandSlots := 31
  portImplementedBitmask := 1
  mapVirtual := id
  mapPhysical := id

def idlePort : DevicePort := ⟨0, 1, 0, 0⟩

theorem transfer_never_scatters_byte :
    ∃ t, writeBytes 1 onePort idlePort ⟨2 ^ 47, 2 ^ 32⟩ (false, 0) 0 1 (2 ^ 20) = some t ∧
      ¬ Scatters onePort idlePort (2 ^ 20) 1 t := by
  have hwrite : writeBytes 1 onePort idlePort ⟨2 ^ 47, 2 ^ 32⟩ (false, 0) 0 1 (2 ^ 20) =
      some ⟨2 ^ 32, 0, true, prdTableLength 1, entries onePort (2 ^ 20) 1⟩ := rfl
  exact ⟨_, hwrite, transfer_never_scatters (by decide) (Or.inr hwrite)⟩

/-- A sector gets thirty-two entries, the first of them one byte too long. -/
theorem not_readBytes_scatters_sector :
    ∃ t, readBytes 1 onePort idlePort ⟨2 ^ 47, 2 ^ 32⟩ (false, 0) 0 512 (2 ^ 20) = some t ∧
      ¬ Scatters onePort idlePort (2 ^ 20) 512 t :=
  ⟨_, rfl, fun h => sum_entries_ne onePort (2 ^ 20) (by decide) (sum_of_tiles h.tiles)⟩

end AHCI

end BlockyOS.Kernel
