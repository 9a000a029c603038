import SimpleFS.Disk

/-! The layout of the C implementation: blocks that end in the number of the next one, a chain of
directory blocks with 32-byte entries, and a superblock that heads the chain of free blocks. -/
namespace SimpleFS.Chained

/-- `FILENAME_LEN`. -/
abbrev filenameLen : ℕ := 10

/-- `sizeof(struct dir_entry)`: the fields are at 0, 10, 12, 16 and 24, the rest is padding. -/
abbrev dirEntrySize : ℕ := 32

/-- `DIR_ENTRIES_PER_BLOCK`. -/
abbrev dirEntriesPerBlock : ℕ := pageSize / dirEntrySize

/-- `MAX_FILE_BLOCKS`. -/
abbrev maxFileBlocks : ℕ := 20

/-- `next_block_no`. -/
def nextBlockNo (blockData : Block) : ℕ := blockData.readLE pageSize 2

/-- `next_block_no` assigned to. -/
def setNextBlockNo (blockData : Block) (b : ℕ) : Block :=
  blockData.copyAt pageSize 2 (Vector.leByte b)

/-- The bytes `f 0, f 1, …` up to the first zero, `m` of them at most. -/
def upToZero (f : ℕ → UInt8) : ℕ → List UInt8
  | 0 => []
  | m + 1 => if f 0 = 0 then [] else f 0 :: upToZero (fun k => f (k + 1)) m

/-- The C string at offset `off`. -/
def cString {n : ℕ} (v : Vector UInt8 n) (off : ℕ) : List UInt8 :=
  upToZero (fun k => v.byteAt (off + k)) (n - off)

/-- `struct dir_entry`, in memory as on the disk. -/
structure DirEntry where
  bytes : Vector UInt8 dirEntrySize

namespace DirEntry

def firstBlock (e : DirEntry) : ℕ := e.bytes.readLE 10 2

def blockCount (e : DirEntry) : ℕ := e.bytes.readLE 12 2

def fileSize (e : DirEntry) : ℕ := e.bytes.readLE 16 4

def mtime (e : DirEntry) : Int64 := (UInt64.ofNat (e.bytes.readLE 24 8)).toInt64

/-- The name as `strcmp` reads it: ten bytes without a zero run on into `first_block`. -/
def name (e : DirEntry) : List UInt8 := cString e.bytes 0

/-- `strncpy(e.name, name, FILENAME_LEN)`. -/
def setName (e : DirEntry) (name : List UInt8) : DirEntry :=
  ⟨e.bytes.copyAt 0 filenameLen fun k => name.getD k 0⟩

def setFirstBlock (e : DirEntry) (b : ℕ) : DirEntry := ⟨e.bytes.copyAt 10 2 (Vector.leByte b)⟩

def setBlockCount (e : DirEntry) (n : ℕ) : DirEntry := ⟨e.bytes.copyAt 12 2 (Vector.leByte n)⟩

def setFileSize (e : DirEntry) (n : ℕ) : DirEntry := ⟨e.bytes.copyAt 16 4 (Vector.leByte n)⟩

def setMtime (e : DirEntry) (t : Int64) : DirEntry :=
  ⟨e.bytes.copyAt 24 8 (Vector.leByte t.toUInt64.toNat)⟩

/-- A file, as opposed to a free entry: `name[0] != '\0'`. -/
def Used (e : DirEntry) : Prop := e.bytes.byteAt 0 ≠ 0

end DirEntry

/-- `dir[i]` in a directory block. -/
def dirAt (blockData : Block) (i : ℕ) : DirEntry := ⟨blockData.slice (i * dirEntrySize) dirEntrySize⟩

/-- `dir[i]` assigned to. -/
def setDirAt (blockData : Block) (i : ℕ) (e : DirEntry) : Block :=
  blockData.copyAt (i * dirEntrySize) dirEntrySize e.bytes.byteAt

/-- The first entry for which `strcmp(dir[i].name, name)` is zero. -/
def findName (blockData : Block) (name : List UInt8) : Option ℕ :=
  (List.range dirEntriesPerBlock).find? fun i => cString blockData (i * dirEntrySize) = name

/-- The first free entry. -/
def findFree (blockData : Block) : Option ℕ :=
  (List.range dirEntriesPerBlock).find? fun i => blockData.byteAt (i * dirEntrySize) = 0

/-- The directory block `blockData` after the loop that stores an entry under its name. -/
def storeEntry (blockData : Block) (name : List UInt8) (entry : DirEntry) : Block :=
  match findName blockData name with
  | some i => setDirAt blockData i entry
  | none => blockData

/-- `struct super_block`. -/
structure SuperBlock where
  firstFreeBlock : ℕ
  rootDirBlock : ℕ
  totalBlocks : UInt32
  freeBlocks : UInt32
  magic : Vector UInt8 16

/-- `memcpy(block_data, &sb, sizeof(sb))`. -/
def SuperBlock.copyTo (sb : SuperBlock) (blockData : Block) : Block :=
  blockData.copyAt 0 2 (Vector.leByte sb.firstFreeBlock)
    |>.copyAt 2 2 (Vector.leByte sb.rootDirBlock)
    |>.copyAt 4 4 (Vector.leByte sb.totalBlocks.toNat)
    |>.copyAt 8 4 (Vector.leByte sb.freeBlocks.toNat)
    |>.copyAt 12 16 sb.magic.byteAt

/-- `memcpy(&sb, block_data, sizeof(sb))`. -/
def SuperBlock.ofBlock (blockData : Block) : SuperBlock where
  firstFreeBlock := blockData.readLE 0 2
  rootDirBlock := blockData.readLE 2 2
  totalBlocks := .ofNat (blockData.readLE 4 4)
  freeBlocks := .ofNat (blockData.readLE 8 4)
  magic := blockData.slice 12 16

/-- The globals: the superblock in memory and the image behind `disk_fd`. -/
structure State where
  sb : SuperBlock
  disk : Disk

/-- A path as FUSE passes it: it has a slash and no NUL, and only the root ends in a slash. -/
structure Path where
  bytes : List UInt8
  slash : 0x2F ∈ bytes
  noNul : 0 ∉ bytes
  named : bytes = [0x2F] ∨ bytes.getLast? ≠ some 0x2F

/-- `strrchr(path, '/') + 1`. -/
def Path.name (path : Path) : List UInt8 := (path.bytes.reverse.takeWhile (· ≠ 0x2F)).reverse

end SimpleFS.Chained
