import SimpleFS.SuperBlock

/-! Inodes: the metadata of one file or directory, and its map of data blocks. The reading of
the system clock that a function makes is an argument here. -/
namespace SimpleFS

/-- `DIRECT_BLOCKS`. -/
abbrev directBlockCount : ℕ := 10

/-- `INODE_SIZE`. -/
abbrev inodeSize : ℕ := 84

/-- `libc::S_IFDIR`. -/
def sIfDir : UInt16 := 0o040000

/-- `libc::S_IFREG`. -/
def sIfReg : UInt16 := 0o100000

structure Inode where
  inodeNo : UInt32
  mode : UInt16
  uid : UInt16
  gid : UInt16
  size : UInt32
  nlink : UInt16
  blockCount : UInt16
  mtime : Int64
  atime : Int64
  ctime : Int64
  directBlocks : Vector UInt32 directBlockCount
  indirectBlock : UInt32
  deriving DecidableEq

namespace Inode

/-- `direct_blocks[k]`. -/
def direct (inode : Inode) (k : ℕ) : UInt32 := inode.directBlocks[k]?.getD 0

/-- `new_file`, at time `now`. -/
def newFile (inodeNo : ℕ) (now : Int64) : Inode where
  inodeNo := .ofNat inodeNo
  mode := sIfReg ||| 0o644
  uid := 1000
  gid := 1000
  size := 0
  nlink := 1
  blockCount := 0
  mtime := now
  atime := now
  ctime := now
  directBlocks := .replicate _ 0
  indirectBlock := 0

/-- `new_dir`, at time `now`. -/
def newDir (inodeNo : ℕ) (now : Int64) : Inode where
  inodeNo := .ofNat inodeNo
  mode := sIfDir ||| 0o755
  uid := 1000
  gid := 1000
  size := 0
  nlink := 2
  blockCount := 0
  mtime := now
  atime := now
  ctime := now
  directBlocks := .replicate _ 0
  indirectBlock := 0

def fromBytes (inodeNo : ℕ) (data : Vector UInt8 inodeSize) : Inode where
  inodeNo := .ofNat inodeNo
  mode := .ofNat (data.readLE 0 2)
  uid := .ofNat (data.readLE 2 2)
  gid := .ofNat (data.readLE 4 2)
  size := .ofNat (data.readLE 6 4)
  nlink := .ofNat (data.readLE 10 2)
  blockCount := .ofNat (data.readLE 12 2)
  mtime := (UInt64.ofNat (data.readLE 14 8)).toInt64
  atime := (UInt64.ofNat (data.readLE 22 8)).toInt64
  ctime := (UInt64.ofNat (data.readLE 30 8)).toInt64
  directBlocks := .ofFn fun i => .ofNat (data.readLE (38 + i * 4) 4)
  indirectBlock := .ofNat (data.readLE (38 + directBlockCount * 4) 4)

def toBytes (inode : Inode) : Vector UInt8 inodeSize :=
  let buf := Vector.zeros inodeSize
  let buf := buf.copyAt 0 2 (Vector.leByte inode.mode.toNat)
  let buf := buf.copyAt 2 2 (Vector.leByte inode.uid.toNat)
  let buf := buf.copyAt 4 2 (Vector.leByte inode.gid.toNat)
  let buf := buf.copyAt 6 4 (Vector.leByte inode.size.toNat)
  let buf := buf.copyAt 10 2 (Vector.leByte inode.nlink.toNat)
  let buf := buf.copyAt 12 2 (Vector.leByte inode.blockCount.toNat)
  let buf := buf.copyAt 14 8 (Vector.leByte inode.mtime.toUInt64.toNat)
  let buf := buf.copyAt 22 8 (Vector.leByte inode.atime.toUInt64.toNat)
  let buf := buf.copyAt 30 8 (Vector.leByte inode.ctime.toUInt64.toNat)
  let buf := buf.copyArray 38 4 directBlockCount fun i => (inode.direct i).toNat
  buf.copyAt (38 + directBlockCount * 4) 4 (Vector.leByte inode.indirectBlock.toNat)

/-- `(inode.mode & S_IFDIR) != 0`. -/
def isDir (inode : Inode) : Bool := inode.mode &&& sIfDir != 0

/-- `check_permission`: any of the three classes may have the permission. -/
def checkPermission (inode : Inode) (wantWrite : Bool) (_uid _gid : UInt32) : Bool :=
  let perm := inode.mode &&& 0o777
  if wantWrite then perm &&& 0o222 != 0 else perm &&& 0o444 != 0

/-- A stored block number; zero stands for no block. -/
def pointer (block : ℕ) : Option ℕ := if block = 0 then none else some block

/-- `get_block`: the number of data block `index`. -/
def getBlock (inode : Inode) (d : Disk) (index : ℕ) : Option (Option ℕ) :=
  if index < directBlockCount then some (pointer (inode.direct index).toNat)
  else if inode.indirectBlock ≠ 0 then do
    let indirectIdx := index - directBlockCount
    let indirectBuf ← d.readBlock inode.indirectBlock.toNat
    let offset := indirectIdx * 2
    if offset + 2 > pageSize then some none
    else some (pointer (indirectBuf.readLE offset 2))
  else some none

/-- `set_block`: an index whose entry does not fit in the indirect block panics. -/
def setBlock (inode : Inode) (d : Disk) (index blockNum : ℕ) : Option (Inode × Disk) :=
  if index < directBlockCount then
    some ({ inode with
      directBlocks := inode.directBlocks.setIfInBounds index (.ofNat blockNum) }, d)
  else do
    let indirectIdx := index - directBlockCount
    let indirectBuf ← d.readBlock inode.indirectBlock.toNat
    let offset := indirectIdx * 2
    if offset + 2 > blockSize then none
    else some (inode, d.writeBlock inode.indirectBlock.toNat
      (indirectBuf.copyAt offset 2 (Vector.leByte (blockNum % 2 ^ 16))))

end Inode

/-- `inode_block_location`: the block and the byte offset of a record of the inode table. -/
def inodeBlockLocation (sb : SuperBlock) (inodeNo : ℕ) : ℕ × ℕ :=
  let inodesPerBlock := blockSize / inodeSize
  let blockOffset := inodeNo / inodesPerBlock
  let byteOffset := inodeNo % inodesPerBlock * inodeSize
  ((sb.inodeTableStart + .ofNat blockOffset).toNat, byteOffset)

def readInode (d : Disk) (sb : SuperBlock) (inodeNo : ℕ) : Option Inode := do
  let (blockNum, offset) := inodeBlockLocation sb inodeNo
  let buf ← d.readBlock blockNum
  some (.fromBytes inodeNo (buf.slice offset inodeSize))

/-- `write_inode`: the other records of the block are kept. -/
def writeInode (d : Disk) (sb : SuperBlock) (inode : Inode) : Option Disk := do
  let (blockNum, offset) := inodeBlockLocation sb inode.inodeNo.toNat
  let buf ← d.readBlock blockNum
  some (d.writeBlock blockNum (buf.copyAt offset inodeSize inode.toBytes.byteAt))

/-- Serializing and parsing an inode loses nothing. -/
theorem Inode.fromBytes_toBytes (inode : Inode) :
    fromBytes inode.inodeNo.toNat inode.toBytes = inode := by
  have hdirect : ∀ i < directBlockCount, UInt32.ofNat (inode.toBytes.readLE (38 + i * 4) 4) =
      inode.direct i := by
    intro i hi
    rw [toBytes, Vector.readLE_copyAt_of_disjoint _ _ (Or.inr (by omega)),
      Vector.readLE_copyArray_self _ _ hi (by decide), Vector.u32_ofNat_leValue]
  have hblocks : Vector.ofFn (fun i : Fin directBlockCount =>
      UInt32.ofNat (inode.toBytes.readLE (38 + i * 4) 4)) = inode.directBlocks := by
    ext i hi
    rw [Vector.getElem_ofFn, hdirect i hi, direct, Vector.getElem?_eq_getElem hi, Option.getD_some]
  cases inode with
  | mk inodeNo mode uid gid size nlink blockCount mtime atime ctime directBlocks indirectBlock =>
    simp only [fromBytes, mk.injEq]
    refine ⟨by simp, ?_, ?_, ?_, ?_, ?_, ?_, ?_, ?_, ?_, hblocks, ?_⟩ <;>
    · simp (disch := decide) only [toBytes, Vector.readLE_copyAt_of_disjoint,
        Vector.readLE_copyArray_of_disjoint, Vector.readLE_copyAt_self, Vector.u16_ofNat_leValue,
        Vector.u32_ofNat_leValue, Vector.u64_ofNat_leValue, Int64.toInt64_toUInt64]

end SimpleFS
