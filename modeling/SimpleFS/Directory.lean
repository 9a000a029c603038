import SimpleFS.Bitmap
import SimpleFS.Inode

/-! Directories: files whose content is a list of 34-byte slots, each empty or naming an inode.
A Rust `&str` is a Lean `String`: both are valid UTF-8. -/
namespace SimpleFS
open Scan

/-- `MAX_NAME_LEN`, in bytes. -/
abbrev maxNameLen : ℕ := 28

/-- `DIR_ENTRY_SIZE`: inode, type, name length and name. -/
abbrev dirEntrySize : ℕ := 4 + 1 + 1 + maxNameLen

abbrev entriesPerBlock : ℕ := pageSize / dirEntrySize

structure DirEntry where
  inode : UInt32
  entryType : UInt8
  nameLen : UInt8
  name : Vector UInt8 maxNameLen
  deriving DecidableEq

namespace DirEntry

/-- `new`: a name that is too long is cut. -/
def new (inode : ℕ) (name : String) (isDir : Bool) : DirEntry :=
  let nameBytes := name.toByteArray
  let len := min nameBytes.size maxNameLen
  { inode := .ofNat inode
    entryType := if isDir then 2 else 1
    nameLen := .ofNat len
    name := (Vector.zeros maxNameLen).copyAt 0 len fun i => nameBytes.data[i]?.getD 0 }

def isEmpty (e : DirEntry) : Bool := e.nameLen == 0

/-- `self.name[..name_len]`, for a length that fits. -/
def nameBytes (e : DirEntry) : ByteArray := ⟨e.name.toArray.extract 0 e.nameLen.toNat⟩

/-- `name_str`: a length past the name field panics, bytes that are not UTF-8 read as `???`. -/
def nameStr (e : DirEntry) : Option String :=
  if e.nameLen.toNat ≤ maxNameLen then some ((String.fromUTF8? e.nameBytes).getD "???") else none

def fromBytes (data : Vector UInt8 dirEntrySize) : DirEntry where
  inode := .ofNat (data.readLE 0 4)
  entryType := data.byteAt 4
  nameLen := data.byteAt 5
  name := data.slice 6 maxNameLen

def toBytes (e : DirEntry) : Vector UInt8 dirEntrySize :=
  let buf := Vector.zeros dirEntrySize
  let buf := buf.copyAt 0 4 (Vector.leByte e.inode.toNat)
  let buf := buf.copyAt 4 1 fun _ => e.entryType
  let buf := buf.copyAt 5 1 fun _ => e.nameLen
  buf.copyAt 6 maxNameLen e.name.byteAt

@[simp] theorem fromBytes_toBytes (e : DirEntry) : fromBytes e.toBytes = e := by
  cases e with
  | mk inode entryType nameLen name =>
    simp only [fromBytes, mk.injEq]
    refine ⟨?_, ?_, ?_, ?_⟩
    · simp (disch := decide) only [toBytes, Vector.readLE_copyAt_of_disjoint,
        Vector.readLE_copyAt_self, Vector.u32_ofNat_leValue]
    · simp [toBytes, Vector.byteAt_copyAt, dirEntrySize, maxNameLen]
    · simp [toBytes, Vector.byteAt_copyAt, dirEntrySize, maxNameLen]
    · exact Vector.slice_copyAt_self _ _ (by decide)

end DirEntry

/-- A slot of a directory: what it holds, its block and its offset there. -/
abbrev Slot := DirEntry × ℕ × ℕ

/-- The slots of a directory block in order. -/
def blockSlots (b : ℕ) (buf : Block) : List Slot :=
  (List.range entriesPerBlock).map fun j =>
    (.fromBytes (buf.slice (j * dirEntrySize) dirEntrySize), b, j * dirEntrySize)

/-- `dir_lookup`: every entry, in the order of the slots. -/
def dirLookup (d : Disk) (dir : Inode) : Option (List Slot) := do
  let blocks ← (List.range dir.blockCount.toNat).mapM fun i => do
    match ← dir.getBlock d i with
    | none => some []
    | some b => do
      let buf ← d.readBlock b
      some ((blockSlots b buf).filter fun slot => !slot.1.isEmpty)
  some blocks.flatten

/-- The test that `dir_find` makes on one slot; an empty slot's name is not looked at. -/
def matchSlot (name : String) (slot : Slot) : Option (Option Slot) :=
  if slot.1.isEmpty then some none
  else do
    let n ← slot.1.nameStr
    some (if n = name then some slot else none)

/-- `dir_find`: the first entry with the name. -/
def dirFind (d : Disk) (dir : Inode) (name : String) : Option (Option Slot) :=
  scanM (fun i => do
    match ← dir.getBlock d i with
    | none => some none
    | some b => do
      let buf ← d.readBlock b
      scanM (matchSlot name) (blockSlots b buf)) (List.range dir.blockCount.toNat)

/-- The search of `dir_add_entry` for an empty slot; a block that is not mapped panics. -/
def findFreeSlot (d : Disk) (dir : Inode) : Option (Option (Block × Slot)) :=
  scanM (fun i => do
    let b ← ← dir.getBlock d i
    let buf ← d.readBlock b
    some (((blockSlots b buf).find? fun slot => slot.1.isEmpty).map fun slot => (buf, slot)))
    (List.range dir.blockCount.toNat)

/-- `dir_add_entry`, at time `now`: the first empty slot, or else a new block. -/
def dirAddEntry (d : Disk) (sb : SuperBlock) (dir : Inode) (name : String) (childInode : ℕ)
    (isDir : Bool) (now : Int64) : Option (Except String Unit × Disk × SuperBlock × Inode) := do
  if (← dirFind d dir name).isSome then
    some (.error "entry already exists", d, sb, dir)
  else
    let entryBytes := (DirEntry.new childInode name isDir).toBytes
    let count := dir.blockCount.toNat
    match ← findFreeSlot d dir with
    | some (buf, _, b, offset) =>
      let d := d.writeBlock b (buf.copyAt offset dirEntrySize entryBytes.byteAt)
      let dir := { dir with mtime := now }
      let d ← writeInode d sb dir
      some (.ok (), d, sb, dir)
    | none =>
      if count < directBlockCount then
        let (newBlock, d, sb) ← Bitmap.allocateBlock d sb
        match newBlock with
        | none => some (.error "no free blocks for directory expansion", d, sb, dir)
        | some newBlock =>
          let d := d.writeBlock newBlock
            ((Vector.zeros blockSize).copyAt 0 dirEntrySize entryBytes.byteAt)
          let blockCount := dir.blockCount + 1
          let dir := { dir with
            directBlocks := dir.directBlocks.setIfInBounds count (.ofNat newBlock)
            blockCount := blockCount
            size := blockCount.toUInt32 * .ofNat pageSize
            mtime := now }
          let d ← writeInode d sb dir
          some (.ok (), d, sb, dir)
      else some (.error "directory too large", d, sb, dir)

/-- `dir_remove_entry`, at time `now`: the slot stays, with name length zero. -/
def dirRemoveEntry (d : Disk) (sb : SuperBlock) (dir : Inode) (name : String) (now : Int64) :
    Option (Except String Unit × Disk × Inode) := do
  match ← dirFind d dir name with
  | none => some (.error "entry not found", d, dir)
  | some (_, b, offset) =>
    let buf ← d.readBlock b
    let d := d.writeBlock b (buf.copyAt (offset + 5) 1 fun _ => 0)
    let dir := { dir with mtime := now }
    let d ← writeInode d sb dir
    some (.ok (), d, dir)

end SimpleFS
