import SimpleFS.Chained.Layout
import SimpleFS.Foundation.Call

/-! The functions of the C implementation. A loop over a chain takes as many turns as the chain on
the disk makes it take, and may go on for ever. -/
namespace SimpleFS.Chained

def ENOENT : ℤ := 2
def EACCES : ℤ := 13
def EEXIST : ℤ := 17
def EFBIG : ℤ := 27
def ENOSPC : ℤ := 28
def ENAMETOOLONG : ℤ := 36

/-- `read_block`: a short read ends the program. -/
def readBlock (d : Disk) (b : ℕ) : Call Block :=
  match d.readBlock b with
  | some blockData => pure blockData
  | none => throw ()

theorem readBlock_eq_pure {d : Disk} {b : ℕ} {blockData : Block}
    (h : readBlock d b = pure blockData) : blockData = d.block b := by
  unfold readBlock at h
  cases hr : d.readBlock b with
  | some buf =>
    simp only [hr, Call.pure_inj] at h
    rw [← h]
    exact Disk.readBlock_eq_some hr
  | none =>
    simp only [hr] at h
    exact absurd h (Call.exit_ne_pure _)

theorem readBlock_of_sized {d : Disk} (h : d.Sized) {b : ℕ} (hb : b < 20480) :
    readBlock d b = pure (d.block b) := by
  simp only [readBlock, h.readBlock hb]

theorem lt_of_readBlock {d : Disk} (h : d.Sized) {b : ℕ} {blockData : Block}
    (hr : readBlock d b = pure blockData) : b < 20480 := by
  unfold readBlock at hr
  cases hb : d.readBlock b with
  | some buf => exact (h.readBlock_eq_some hb).1
  | none =>
    simp only [hb] at hr
    exact absurd hr (Call.exit_ne_pure _)

/-- `allocate_block`: zero when no block is left. -/
def allocateBlock (s : State) : Call (ℕ × State) :=
  if s.sb.freeBlocks = 0 then pure (0, s)
  else do
    let allocated := s.sb.firstFreeBlock
    let blockData ← readBlock s.disk allocated
    let sb := { s.sb with
      firstFreeBlock := nextBlockNo blockData
      freeBlocks := s.sb.freeBlocks - 1 }
    return (allocated, ⟨sb, s.disk.writeBlock 0 (sb.copyTo (Vector.zeros blockSize))⟩)

/-- `free_block`. -/
def freeBlock (s : State) (b : ℕ) : State :=
  let sb := { s.sb with firstFreeBlock := b, freeBlocks := s.sb.freeBlocks + 1 }
  let disk := s.disk.writeBlock b (setNextBlockNo (Vector.zeros blockSize) s.sb.firstFreeBlock)
  ⟨sb, disk.writeBlock 0 (sb.copyTo (Vector.zeros blockSize))⟩

/-- The loop of `find_entry`, from directory block `b` on. -/
def State.findLoop (s : State) (name : List UInt8) (b : ℕ) : Call (Option (DirEntry × ℕ)) :=
  if b = 0 then pure none
  else do
    let blockData ← readBlock s.disk b
    match findName blockData name with
    | some i => return some (dirAt blockData i, b)
    | none => s |>.findLoop name (nextBlockNo blockData)
partial_fixpoint

/-- `find_entry`: the entry and its directory block. -/
def findEntry (s : State) (path : Path) : Call (Option (DirEntry × ℕ)) :=
  if path.bytes = [0x2F] then pure none
  else s.findLoop path.name s.sb.rootDirBlock

/-- `struct stat`; the fields that are not here stay zero. -/
structure Stat where
  mode : ℕ
  nlink : ℕ
  size : ℕ
  mtime : Int64

/-- `simplefs_getattr`. -/
def simplefsGetattr (s : State) (path : Path) : Call (Except ℤ Stat) := do
  if path.bytes = [0x2F] then return .ok ⟨0o040755, 2, 0, 0⟩
  match ← findEntry s path with
  | some (entry, _) => return .ok ⟨0o100444, 1, entry.fileSize, entry.mtime⟩
  | none => return .error (-ENOENT)

/-- The loop of `simplefs_readdir`, from directory block `b` on: the names that `filler` gets. -/
def State.listLoop (s : State) (b : ℕ) : Call (List (List UInt8)) :=
  if b = 0 then pure []
  else do
    let blockData ← readBlock s.disk b
    let used := (List.range dirEntriesPerBlock).filter fun i => blockData.byteAt (i * dirEntrySize) ≠ 0
    let rest ← s |>.listLoop (nextBlockNo blockData)
    return used.map (fun i => cString blockData (i * dirEntrySize)) ++ rest
partial_fixpoint

/-- `simplefs_readdir`. What `filler` returns is not looked at. -/
def simplefsReaddir (s : State) (path : Path) : Call (Except ℤ (List (List UInt8))) := do
  if path.bytes ≠ [0x2F] then return .error (-ENOENT)
  let names ← s.listLoop s.sb.rootDirBlock
  return .ok ([0x2E] :: [0x2E, 0x2E] :: names)

/-- `simplefs_open`. `O_ACCMODE` is 3, and `O_RDONLY` is 0. -/
def simplefsOpen (s : State) (path : Path) (flags : UInt32) : Call ℤ := do
  match ← findEntry s path with
  | none => return -ENOENT
  | some _ => if flags &&& 3 ≠ 0 then return -EACCES else return 0

/-- The loop of `simplefs_read`, from offset `off` of block `b` on: the bytes that it copies. -/
def State.readLoop (s : State) (b off remaining : ℕ) : Call (List UInt8) :=
  if remaining > 0 ∧ b ≠ 0 then do
    let blockData ← readBlock s.disk b
    let toCopy := min (pageSize - off) remaining
    let copied := (List.range toCopy).map fun k => blockData.byteAt (off + k)
    let rest ← s |>.readLoop (nextBlockNo blockData) 0 (remaining - toCopy)
    return copied ++ rest
  else pure []
partial_fixpoint

/-- `n` steps along a chain. -/
def skipLoop (d : Disk) : ℕ → ℕ → Call ℕ
  | 0, b => pure b
  | n + 1, b => do
    let blockData ← readBlock d b
    skipLoop d n (nextBlockNo blockData)

/-- `simplefs_read`: the bytes copied to the buffer, or an error. -/
def simplefsRead (s : State) (path : Path) (size offset : ℕ) : Call (Except ℤ (List UInt8)) := do
  match ← findEntry s path with
  | none => return .error (-ENOENT)
  | some (entry, _) =>
    if offset ≥ entry.fileSize then return .ok []
    let size := if (offset + size) % 2 ^ 64 > entry.fileSize then entry.fileSize - offset else size
    let current ← skipLoop s.disk (offset / pageSize) entry.firstBlock
    let copied ← s.readLoop current (offset % pageSize) size
    return .ok copied

/-- The loop of `simplefs_create`: where the new entry goes, with the block's content so far. -/
def State.slotLoop (s : State) (b : ℕ) : Call (Option (ℕ × Block × ℕ) × State) :=
  if b = 0 then pure (none, s)
  else do
    let blockData ← readBlock s.disk b
    match findFree blockData with
    | some i => return (some (b, blockData, i), s)
    | none =>
      if nextBlockNo blockData = 0 then do
        let (new, s) ← allocateBlock s
        if new = 0 then return (none, s)
        let disk := s.disk.writeBlock b (setNextBlockNo blockData new)
        return (some (new, Vector.zeros blockSize, 0), { s with disk := disk })
      else s |>.slotLoop (nextBlockNo blockData)
partial_fixpoint

/-- `simplefs_create`. -/
def simplefsCreate (s : State) (now : Int64) (path : Path) : Call (ℤ × State) := do
  if path.name.length > filenameLen then return (-ENAMETOOLONG, s)
  match ← findEntry s path with
  | some _ => return (-EEXIST, s)
  | none =>
    match ← s.slotLoop s.sb.rootDirBlock with
    | (none, s) => return (-ENOSPC, s)
    | (some (b, blockData, i), s) =>
      let entry := (dirAt blockData i).setName path.name
        |>.setFirstBlock 0 |>.setBlockCount 0 |>.setFileSize 0 |>.setMtime now
      return (0, { s with disk := s.disk.writeBlock b (setDirAt blockData i entry) })

/-- A block as a loop holds it: `last_block` and `block_data`. -/
structure Cursor where
  block : ℕ
  data : Block

/-- The loop that looks for the last block of a file. Its body does not read the next block. -/
def Cursor.last (c : Cursor) : Option Cursor :=
  if nextBlockNo c.data ≠ 0 then ({ c with block := nextBlockNo c.data } : Cursor) |>.last
  else some c
partial_fixpoint

/-- The loop that appends `n` blocks to a file. No entry: the space ran out. -/
def growLoop (s : State) (entry : DirEntry) (last : Cursor) :
    ℕ → Call (Option DirEntry × State)
  | 0 => pure (some entry, s)
  | n + 1 => do
    let (new, s) ← allocateBlock s
    if new = 0 then return (none, s)
    let (entry, disk) := if entry.firstBlock = 0 then (entry.setFirstBlock new, s.disk)
      else (entry, s.disk.writeBlock last.block (setNextBlockNo last.data new))
    growLoop { s with disk := disk } (entry.setBlockCount (entry.blockCount + 1))
      ⟨new, Vector.zeros blockSize⟩ n

/-- The branch of `simplefs_write` for a file with too few blocks. -/
def grow (s : State) (entry : DirEntry) (required : ℕ) : Call (Option DirEntry × State) := do
  let n := required - entry.blockCount
  if entry.firstBlock = 0 then growLoop s entry ⟨0, Vector.zeros blockSize⟩ n
  else do
    let blockData ← readBlock s.disk entry.firstBlock
    let last ← Cursor.last ⟨entry.firstBlock, blockData⟩
    growLoop s entry last n

/-- The loops that free the rest of a chain; `note` is what else they do for each block. -/
def State.freeLoop {α : Type} (note : α → α) (a : α) (s : State) (b : ℕ) : Call (α × State) :=
  if b = 0 then pure (a, s)
  else do
    let blockData ← readBlock s.disk b
    freeBlock s b |>.freeLoop note (note a) (nextBlockNo blockData)
partial_fixpoint

/-- The branch of `simplefs_write` for a file with too many blocks. `block_count--` wraps at 16
bits. -/
def shrink (s : State) (entry : DirEntry) (required : ℕ) : Call (DirEntry × State) := do
  let keep ← skipLoop s.disk (required - 1) entry.firstBlock
  let blockData ← readBlock s.disk keep
  let disk := s.disk.writeBlock keep (setNextBlockNo blockData 0)
  State.freeLoop (fun entry => entry.setBlockCount (entry.blockCount + (2 ^ 16 - 1))) entry
    { s with disk := disk } (nextBlockNo blockData)

/-- The loop that writes the data, from offset `off` of block `b` on. -/
def State.writeLoop (s : State) (b off : ℕ) (data : List UInt8) : Call State :=
  if data.length > 0 ∧ b ≠ 0 then do
    let blockData ← readBlock s.disk b
    let toWrite := min (pageSize - off) data.length
    let disk := s.disk.writeBlock b (blockData.copyAt off toWrite fun k => data.getD k 0)
    { s with disk := disk } |>.writeLoop (nextBlockNo blockData) 0 (data.drop toWrite)
  else pure s
partial_fixpoint

/-- `required_blocks`. -/
def requiredBlocks (offset size : ℕ) : ℕ := (offset + size + pageSize - 1) % 2 ^ 64 / pageSize

/-- The blocks of a file fitted to what a write needs. -/
def resize (s : State) (entry : DirEntry) (required : ℕ) : Call (Option DirEntry × State) :=
  if required > entry.blockCount then grow s entry required
  else if required < entry.blockCount then do
    let (entry, s) ← shrink s entry required
    return (some entry, s)
  else pure (some entry, s)

/-- `simplefs_write`. -/
def simplefsWrite (s : State) (now : Int64) (path : Path) (offset : ℕ) (data : List UInt8) :
    Call (ℤ × State) := do
  match ← findEntry s path with
  | none => return (-ENOENT, s)
  | some (entry, dirBlock) =>
    let required := requiredBlocks offset data.length
    if required > maxFileBlocks then return (-EFBIG, s)
    match ← resize s entry required with
    | (none, s) => return (-ENOSPC, s)
    | (some entry, s) =>
      let current ← skipLoop s.disk (offset / pageSize) entry.firstBlock
      let s ← s.writeLoop current (offset % pageSize) data
      let fileEnd := (offset + data.length) % 2 ^ 64
      let entry := (entry.setFileSize (if fileEnd > entry.fileSize then fileEnd else entry.fileSize))
        |>.setMtime now
      let blockData ← readBlock s.disk dirBlock
      return (data.length, { s with
        disk := s.disk.writeBlock dirBlock (storeEntry blockData entry.name entry) })

/-- `simplefs_unlink`. -/
def simplefsUnlink (s : State) (path : Path) : Call (ℤ × State) := do
  match ← findEntry s path with
  | none => return (-ENOENT, s)
  | some (entry, dirBlock) =>
    let (_, s) ← s.freeLoop id () entry.firstBlock
    let blockData ← readBlock s.disk dirBlock
    let blank : DirEntry := ⟨Vector.zeros dirEntrySize⟩
    return (0, { s with
      disk := s.disk.writeBlock dirBlock (storeEntry blockData entry.name blank) })

/-- The chain of free blocks as `format_disk` lays it out. -/
def formatFree (d : Disk) : Disk :=
  (List.range' 1 (maxBlocks - 1)).foldl (fun d i =>
    d.writeBlock i (setNextBlockNo (Vector.zeros blockSize) (if i = maxBlocks - 1 then 0 else i + 1))) d

/-- `SIMPLEFS`, filled up with zeros. -/
def magic : Vector UInt8 16 := ⟨#[83, 73, 77, 80, 76, 69, 70, 83, 0, 0, 0, 0, 0, 0, 0, 0], rfl⟩

/-- `format_disk`. -/
def formatDisk (d : Disk) : Call State := do
  let sb : SuperBlock := ⟨1, 0, .ofNat maxBlocks, .ofNat (maxBlocks - 1), magic⟩
  let (root, s) ← allocateBlock ⟨sb, formatFree d⟩
  let blockData := setNextBlockNo (Vector.zeros blockSize) 0
  let sb := { s.sb with rootDirBlock := root }
  let disk := s.disk.writeBlock root blockData
  return ⟨sb, disk.writeBlock 0 (sb.copyTo blockData)⟩

/-- The part of `init_disk` that opens the image: a file of no size is made one. -/
def openDisk (image : List UInt8) : Call Disk :=
  if image.length = 0 then do
    let s ← formatDisk ((Disk.ofImage image).truncate diskSize)
    return s.disk
  else if image.length ≠ diskSize then throw ()
  else pure (Disk.ofImage image)

/-- `init_disk` on what the file `disk_path` holds, nothing if it is not there. -/
def initDisk (image : List UInt8) : Call State := do
  let disk ← openDisk image
  let blockData ← readBlock disk 0
  let sb := SuperBlock.ofBlock blockData
  if cString sb.magic 0 = [83, 73, 77, 80, 76, 69, 70, 83] then return ⟨sb, disk⟩
  else throw ()

/-- The requests that change the image. -/
inductive Request
  | create (path : Path)
  | write (path : Path) (offset : ℕ) (data : List UInt8)
  | unlink (path : Path)

def handle (s : State) (now : Int64) : Request → Call (ℤ × State)
  | .create path => simplefsCreate s now path
  | .write path offset data => simplefsWrite s now path offset data
  | .unlink path => simplefsUnlink s path

end SimpleFS.Chained
