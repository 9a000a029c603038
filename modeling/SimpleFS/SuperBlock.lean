import SimpleFS.Disk

/-! The superblock: global metadata in block 0. -/
namespace SimpleFS

/-- `MAGIC`: the text `SIMPLEFS-RUST` and three zero bytes. -/
def magicBytes : Vector UInt8 16 :=
  #v[83, 73, 77, 80, 76, 69, 70, 83, 45, 82, 85, 83, 84, 0, 0, 0]

structure SuperBlock where
  magic : Vector UInt8 16
  totalBlocks : UInt32
  freeBlocks : UInt32
  bitmapBlocks : UInt32
  inodeTableStart : UInt32
  inodeTableBlocks : UInt32
  dataStart : UInt32
  rootInode : UInt32
  deriving DecidableEq

namespace SuperBlock

/-- `SuperBlock::SIZE`. -/
abbrev size : ℕ := 44

def fromBytes {n : ℕ} (data : Vector UInt8 n) : SuperBlock where
  magic := data.slice 0 16
  totalBlocks := .ofNat (data.readLE 16 4)
  freeBlocks := .ofNat (data.readLE 20 4)
  bitmapBlocks := .ofNat (data.readLE 24 4)
  inodeTableStart := .ofNat (data.readLE 28 4)
  inodeTableBlocks := .ofNat (data.readLE 32 4)
  dataStart := .ofNat (data.readLE 36 4)
  rootInode := .ofNat (data.readLE 40 4)

def toBytes (sb : SuperBlock) : Vector UInt8 size :=
  let buf := Vector.zeros size
  let buf := buf.copyAt 0 16 sb.magic.byteAt
  let buf := buf.copyAt 16 4 (Vector.leByte sb.totalBlocks.toNat)
  let buf := buf.copyAt 20 4 (Vector.leByte sb.freeBlocks.toNat)
  let buf := buf.copyAt 24 4 (Vector.leByte sb.bitmapBlocks.toNat)
  let buf := buf.copyAt 28 4 (Vector.leByte sb.inodeTableStart.toNat)
  let buf := buf.copyAt 32 4 (Vector.leByte sb.inodeTableBlocks.toNat)
  let buf := buf.copyAt 36 4 (Vector.leByte sb.dataStart.toNat)
  buf.copyAt 40 4 (Vector.leByte sb.rootInode.toNat)

/-- `is_valid`: the first 13 bytes of the magic. -/
def isValid (sb : SuperBlock) : Bool := sb.magic.toList.take 13 == magicBytes.toList.take 13

def calcBitmapBlocks : UInt32 :=
  (.ofNat maxBlocks + .ofNat blockSize * 8 - 1) / (.ofNat blockSize * 8)

/-- Block 0 as it is written: the serialized superblock, then zeros. -/
def toBlock (sb : SuperBlock) : Block := (Vector.zeros blockSize).copyAt 0 size sb.toBytes.byteAt

end SuperBlock

/-- `init_superblock`: the layout of a new file system, written to block 0. -/
def initSuperblock (d : Disk) : Disk × SuperBlock :=
  let bitmapBlocks := SuperBlock.calcBitmapBlocks
  let inodeTableStart := 1 + bitmapBlocks
  let inodeTableBlocks : UInt32 := 25
  let dataStart := inodeTableStart + inodeTableBlocks
  let sb : SuperBlock :=
    { magic := magicBytes, totalBlocks := .ofNat maxBlocks
      freeBlocks := .ofNat maxBlocks - dataStart
      bitmapBlocks := bitmapBlocks, inodeTableStart := inodeTableStart
      inodeTableBlocks := inodeTableBlocks, dataStart := dataStart, rootInode := 0 }
  (d.writeBlock 0 sb.toBlock, sb)

/-- The superblock that `init_superblock` writes, on any disk. -/
def SuperBlock.initial : SuperBlock := (initSuperblock (.ofImage [])).2

theorem initSuperblock_eq (d : Disk) :
    initSuperblock d = (d.writeBlock 0 SuperBlock.initial.toBlock, .initial) := rfl

/-- `read_superblock`: an image without the magic panics. -/
def readSuperblock (d : Disk) : Option SuperBlock := do
  let buf ← d.readBlock 0
  let sb := SuperBlock.fromBytes buf
  if sb.isValid then some sb else none

def writeSuperblock (d : Disk) (sb : SuperBlock) : Disk := d.writeBlock 0 sb.toBlock

/-- Serializing and parsing a superblock loses nothing. -/
@[simp] theorem SuperBlock.fromBytes_toBytes (sb : SuperBlock) : fromBytes sb.toBytes = sb := by
  have hmagic : sb.toBytes.slice 0 16 = sb.magic := by
    simp only [toBytes, size]
    repeat rw [Vector.slice_copyAt_of_disjoint _ _ (by decide)]
    exact Vector.slice_copyAt_self _ _ (by decide)
  cases sb with
  | mk magic total free bitmap start blocks data root =>
    simp only [fromBytes, mk.injEq]
    refine ⟨hmagic, ?_, ?_, ?_, ?_, ?_, ?_, ?_⟩ <;>
    · simp (disch := decide) only [toBytes, size, Vector.readLE_copyAt_of_disjoint,
        Vector.readLE_copyAt_self, Vector.u32_ofNat_leValue]

@[simp] theorem SuperBlock.fromBytes_toBlock (sb : SuperBlock) : fromBytes sb.toBlock = sb := by
  have hslice : sb.toBlock.slice 0 size = sb.toBytes :=
    Vector.slice_copyAt_self _ _ (by decide)
  have hread : ∀ off, off + 4 ≤ size → sb.toBlock.readLE off 4 = sb.toBytes.readLE off 4 := by
    intro off h
    rw [← hslice, Vector.readLE_slice _ h, Nat.zero_add]
  have hmagic : sb.toBlock.slice 0 16 = sb.toBytes.slice 0 16 := by
    rw [← hslice]
    apply Vector.ext_byteAt
    intro i hi
    rw [Vector.byteAt_slice _ _ hi, Vector.byteAt_slice _ _ hi,
      Vector.byteAt_slice _ _ (by simp only [size]; omega), Nat.zero_add, Nat.zero_add]
  calc fromBytes sb.toBlock = fromBytes sb.toBytes := by
        simp only [fromBytes, hmagic]
        rw [hread 16 (by decide), hread 20 (by decide), hread 24 (by decide), hread 28 (by decide),
          hread 32 (by decide), hread 36 (by decide), hread 40 (by decide)]
    _ = sb := fromBytes_toBytes sb

/-- The layout fields as formatting writes them. Every later state keeps them. -/
structure Layout (sb : SuperBlock) : Prop where
  valid : sb.isValid = true
  totalBlocks : sb.totalBlocks = 20480
  bitmapBlocks : sb.bitmapBlocks = 5
  inodeTableStart : sb.inodeTableStart = 6
  inodeTableBlocks : sb.inodeTableBlocks = 25
  dataStart : sb.dataStart = 31
  rootInode : sb.rootInode = 1

theorem Layout.setFreeBlocks {sb : SuperBlock} (h : Layout sb) (n : UInt32) :
    Layout { sb with freeBlocks := n } :=
  ⟨h.valid, h.totalBlocks, h.bitmapBlocks, h.inodeTableStart, h.inodeTableBlocks, h.dataStart,
    h.rootInode⟩

end SimpleFS
