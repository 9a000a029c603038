import SimpleFS.Directory

/-! The FUSE requests. A request takes the disk and the in-memory superblock to a reply and
their new values; `none` is a panic, after which nothing is answered. Where an `expect` or an
`unwrap` can fail after blocks have been written, the operation is first given as an attempt, which
says how it left the disk. The readings of the clock that a request makes are `now 0`, `now 1`, in
the order it makes them. -/
namespace SimpleFS
open Scan

/-- `MAX_FILE_BLOCKS`. -/
abbrev maxFileBlocks : ℕ := 20

/-- `SimpleFS`: the open image and the superblock in memory. -/
structure Fs where
  disk : Disk
  sb : SuperBlock

inductive Errno
  | EACCES | EEXIST | ENOENT | ENOSPC | ENOTDIR | ENOTEMPTY | EFBIG | EISDIR
  deriving DecidableEq

inductive FileType
  | directory | regularFile
  deriving DecidableEq

/-- `FileAttr`; a `SystemTime` is its seconds after the epoch. -/
structure FileAttr where
  ino : ℕ
  size : ℕ
  blocks : ℕ
  atime : ℕ
  mtime : ℕ
  ctime : ℕ
  crtime : ℕ
  kind : FileType
  perm : UInt16
  nlink : ℕ
  uid : ℕ
  gid : ℕ
  rdev : ℕ
  flags : ℕ
  blksize : ℕ
  deriving DecidableEq

/-- What `readdir` hands to `reply.add`. -/
structure DirItem where
  ino : ℕ
  offset : ℕ
  kind : FileType
  name : String
  deriving DecidableEq

/-- The replies, with the time to live in seconds, the generation, the handle and the flags
where they have them. -/
inductive Reply
  | error (errno : Errno)
  | attr (ttl : ℕ) (attr : FileAttr)
  | entry (ttl : ℕ) (attr : FileAttr) (generation : ℕ)
  | created (ttl : ℕ) (attr : FileAttr) (generation fh flags : ℕ)
  | opened (fh flags : ℕ)
  | data (bytes : List UInt8)
  | written (size : ℕ)
  | directory (items : List DirItem)
  | ok
  deriving DecidableEq

def systemTimeFromTimestamp (ts : Int64) : ℕ := ts.toInt.toNat

def inodeToAttr (inode : Inode) : FileAttr where
  ino := inode.inodeNo.toNat
  size := inode.size.toNat
  blocks := inode.blockCount.toNat
  atime := systemTimeFromTimestamp inode.atime
  mtime := systemTimeFromTimestamp inode.mtime
  ctime := systemTimeFromTimestamp inode.ctime
  crtime := systemTimeFromTimestamp inode.ctime
  kind := if inode.isDir then .directory else .regularFile
  perm := inode.mode
  nlink := inode.nlink.toNat
  uid := inode.uid.toNat
  gid := inode.gid.toNat
  rdev := 0
  flags := 0
  blksize := blockSize

/-- `ino as u32`. -/
def asU32 (ino : ℕ) : ℕ := ino % 2 ^ 32

/-- An attempt at a request: the reply, or none after a failed `expect` or `unwrap`, and what is
left of the file system. -/
abbrev Attempt := Option Reply × Fs

namespace Fs

/-- A request is answered when the attempt is. -/
def answered (attempt : Option Attempt) : Option (Reply × Fs) := do
  let (reply, fs) ← attempt
  some (← reply, fs)

def getattr (fs : Fs) (ino : ℕ) : Option (Reply × Fs) := do
  let inode ← readInode fs.disk fs.sb (asU32 ino)
  if inode.nlink = 0 then some (.error .ENOENT, fs)
  else some (.attr 1 (inodeToAttr inode), fs)

/-- The loop of `readdir` over the entries from position `entryOffset` on. `full` is the answer
of `reply.add`, given what the reply holds already. -/
def readdirLoop (full : List DirItem → DirItem → Bool) (offset : Int64) :
    List Slot → ℕ → List DirItem → Option (List DirItem)
  | [], _, items => some items
  | (entry, _, _) :: rest, entryOffset, items =>
    if (entryOffset : ℤ) ≥ offset.toInt then do
      let name ← entry.nameStr
      let item : DirItem :=
        { ino := entry.inode.toNat, offset := entryOffset + 1
          kind := if entry.entryType = 2 then .directory else .regularFile, name := name }
      if full items item then some items
      else readdirLoop full offset rest (entryOffset + 1) (items ++ [item])
    else readdirLoop full offset rest (entryOffset + 1) items

def readdir (fs : Fs) (ino : ℕ) (offset : Int64) (full : List DirItem → DirItem → Bool) :
    Option (Reply × Fs) := do
  let dirInode ← readInode fs.disk fs.sb (asU32 ino)
  if !dirInode.isDir then some (.error .ENOTDIR, fs)
  else do
    let entries ← dirLookup fs.disk dirInode
    let items ← readdirLoop full offset entries 0 []
    some (.directory items, fs)

def lookup (fs : Fs) (parent : ℕ) (name : ByteArray) : Option (Reply × Fs) := do
  let parentInode ← readInode fs.disk fs.sb (asU32 parent)
  match ← dirFind fs.disk parentInode ((String.fromUTF8? name).getD "") with
  | some (entry, _, _) => do
    let childInode ← readInode fs.disk fs.sb entry.inode.toNat
    some (.entry 1 (inodeToAttr childInode) 0, fs)
  | none => some (.error .ENOENT, fs)

/-- `open`, with `O_WRONLY` and `O_RDWR` the flags 1 and 2. -/
def openFile (fs : Fs) (ino : ℕ) (flags uid gid : UInt32) : Option (Reply × Fs) := do
  let inode ← readInode fs.disk fs.sb (asU32 ino)
  let wantWrite := flags &&& 1 != 0 || flags &&& 2 != 0
  if wantWrite && !inode.checkPermission true uid gid then some (.error .EACCES, fs)
  else some (.opened ino 0, fs)

/-- The loop of `read`; every turn takes at least one byte, so `remaining` turns suffice. -/
def readLoop (d : Disk) (inode : Inode) : ℕ → ℕ → ℕ → ℕ → Option (List UInt8)
  | 0, _, _, _ => some []
  | turns + 1, remaining, blockIndex, blockOffset =>
    if remaining = 0 then some []
    else do
      match ← inode.getBlock d blockIndex with
      | none => some []
      | some b => do
        let buf ← d.readBlock b
        let toCopy := min remaining (pageSize - blockOffset)
        let rest ← readLoop d inode turns (remaining - toCopy) (blockIndex + 1) 0
        some ((List.range toCopy).map (fun i => buf.byteAt (blockOffset + i)) ++ rest)

def read (fs : Fs) (ino : ℕ) (offset : Int64) (size : UInt32) : Option (Reply × Fs) := do
  let inode ← readInode fs.disk fs.sb (asU32 ino)
  if offset ≥ inode.size.toUInt64.toInt64 then some (.data [], fs)
  else do
    let actualSize := min size (inode.size.toUInt64.toInt64 - offset).toUInt64.toUInt32
    let blockIndex := offset.toUInt64.toUInt32.toNat / pageSize
    let blockOffset := offset.toUInt64.toNat % pageSize
    let result ← readLoop fs.disk inode actualSize.toNat actualSize.toNat blockIndex blockOffset
    some (.data result, fs)

/-- The search of `create` and `mkdir` for an inode number from `first` to `last`. -/
def findInodeNo (fs : Fs) (first last : ℕ) : Option (Option ℕ) :=
  scanM (fun candidate => do
    let testInode ← readInode fs.disk fs.sb candidate
    some (if testInode.nlink = 0 then some candidate else none))
    (List.range' first (last + 1 - first))

def create (fs : Fs) (parent : ℕ) (name : ByteArray) (now : ℕ → Int64) :
    Option (Reply × Fs) := do
  let nameStr := (String.fromUTF8? name).getD "unknown"
  let parentInode ← readInode fs.disk fs.sb (asU32 parent)
  if (← dirFind fs.disk parentInode nameStr).isSome then some (.error .EEXIST, fs)
  else
    match ← fs.findInodeNo 1000 2000 with
    | none => some (.error .ENOSPC, fs)
    | some newInodeNo =>
      let newInode := { Inode.newFile newInodeNo (now 0) with mode := sIfReg ||| 0o644 }
      let d ← writeInode fs.disk fs.sb newInode
      let (result, d, sb, _) ← dirAddEntry d fs.sb parentInode nameStr newInodeNo false (now 1)
      match result with
      | .error e =>
        some (.error (if e = "entry already exists" then .EEXIST else .ENOSPC), ⟨d, sb⟩)
      | .ok () => some (.created 1 (inodeToAttr newInode) 0 newInodeNo 0, ⟨d, sb⟩)

/-- The first block of a new directory: the entries `.` and `..`. -/
def dotsBlock (inodeNo parent : ℕ) : Block :=
  let buf := Vector.zeros blockSize
  let buf := buf.copyAt 0 dirEntrySize (DirEntry.new inodeNo "." true).toBytes.byteAt
  buf.copyAt dirEntrySize dirEntrySize (DirEntry.new parent ".." true).toBytes.byteAt

def mkdirAttempt (fs : Fs) (parent : ℕ) (name : ByteArray) (now : ℕ → Int64) :
    Option Attempt := do
  let nameStr := (String.fromUTF8? name).getD "unknown"
  let parentInode ← readInode fs.disk fs.sb (asU32 parent)
  if (← dirFind fs.disk parentInode nameStr).isSome then some (some (.error .EEXIST), fs)
  else
    match ← fs.findInodeNo 500 900 with
    | none => some (some (.error .ENOSPC), fs)
    | some newInodeNo =>
      let (dataBlock, d, sb) ← Bitmap.allocateBlock fs.disk fs.sb
      match dataBlock with
      | none => some (some (.error .ENOSPC), ⟨d, sb⟩)
      | some dataBlock =>
        let d := d.writeBlock dataBlock (dotsBlock newInodeNo (asU32 parent))
        let newDir := Inode.newDir newInodeNo (now 0)
        let newDir := { newDir with
          directBlocks := newDir.directBlocks.setIfInBounds 0 (.ofNat dataBlock)
          blockCount := 1
          size := .ofNat pageSize }
        let d ← writeInode d sb newDir
        let (result, d, sb, _) ← dirAddEntry d sb parentInode nameStr newInodeNo true (now 1)
        match result with
        | .error _ => some (none, ⟨d, sb⟩)
        | .ok () => some (some (.entry 1 (inodeToAttr newDir) 0), ⟨d, sb⟩)

def mkdir (fs : Fs) (parent : ℕ) (name : ByteArray) (now : ℕ → Int64) : Option (Reply × Fs) :=
  answered (fs.mkdirAttempt parent name now)

/-- One turn of the loop of `unlink` and `rmdir` that frees the blocks of an inode. -/
def freeDataBlock (inode : Inode) (s : Disk × SuperBlock) (i : ℕ) : Option (Disk × SuperBlock) := do
  match ← inode.getBlock s.1 i with
  | some b => Bitmap.markFree s.1 s.2 b
  | none => some s

/-- The whole loop. -/
def freeDataBlocks (d : Disk) (sb : SuperBlock) (inode : Inode) : Option (Disk × SuperBlock) :=
  (List.range inode.blockCount.toNat).foldlM (freeDataBlock inode) (d, sb)

/-- The freeing of the indirect block, which only `unlink` does. -/
def freeIndirectBlock (d : Disk) (sb : SuperBlock) (inode : Inode) : Option (Disk × SuperBlock) :=
  if inode.indirectBlock ≠ 0 then Bitmap.markFree d sb inode.indirectBlock.toNat else some (d, sb)

def rmdir (fs : Fs) (parent : ℕ) (name : ByteArray) (now : ℕ → Int64) :
    Option (Reply × Fs) := do
  let nameStr := (String.fromUTF8? name).getD ""
  let parentInode ← readInode fs.disk fs.sb (asU32 parent)
  match ← dirFind fs.disk parentInode nameStr with
  | none => some (.error .ENOENT, fs)
  | some (entry, _, _) =>
    let childInode ← readInode fs.disk fs.sb entry.inode.toNat
    if !childInode.isDir then some (.error .ENOTDIR, fs)
    else do
      let childEntries ← dirLookup fs.disk childInode
      if childEntries.length > 2 then some (.error .ENOTEMPTY, fs)
      else do
        let (d, sb) ← freeDataBlocks fs.disk fs.sb childInode
        let (result, d, _) ← dirRemoveEntry d sb parentInode nameStr (now 0)
        match result with
        | .error _ => none
        | .ok () =>
          let d ← writeInode d sb { childInode with nlink := 0 }
          some (.ok, ⟨d, sb⟩)

/-- The part of a turn of the growing loop that enters the new block into the block map. No inode
in the result means that there was no block for the indirect block, where the program panics. -/
def attachBlock (d : Disk) (sb : SuperBlock) (inode : Inode) (newBlock : ℕ) :
    Option (Option Inode × Disk × SuperBlock) :=
  let idx := inode.blockCount.toNat
  if idx < directBlockCount then
    some (some { inode with
      directBlocks := inode.directBlocks.setIfInBounds idx (.ofNat newBlock) }, d, sb)
  else if idx = directBlockCount then do
    let (indirect, d, sb) ← Bitmap.allocateBlock d sb
    match indirect with
    | none => some (none, d, sb)
    | some indirect =>
      let indirectBuf := (Vector.zeros blockSize).copyAt 0 2 (Vector.leByte (newBlock % 2 ^ 16))
      some (some { inode with indirectBlock := .ofNat indirect },
        d.writeBlock indirect indirectBuf, sb)
  else do
    let indirectIdx := idx - directBlockCount
    let indirectBuf ← d.readBlock inode.indirectBlock.toNat
    let byteOffset := indirectIdx * 2
    if byteOffset + 2 > blockSize then none
    else some (some inode, d.writeBlock inode.indirectBlock.toNat
      (indirectBuf.copyAt byteOffset 2 (Vector.leByte (newBlock % 2 ^ 16))), sb)

/-- How the growing of a file ends: as asked, with no block left for the data, or with none left
for the indirect block. -/
inductive Growth
  | grown (inode : Inode)
  | full
  | stuck

/-- One turn of the loop of `write` that gives the file another block. -/
def growStep (d : Disk) (sb : SuperBlock) (inode : Inode) :
    Option (Growth × Disk × SuperBlock) := do
  let (newBlock, d, sb) ← Bitmap.allocateBlock d sb
  match newBlock with
  | none => some (.full, d, sb)
  | some newBlock =>
    let (inode, d, sb) ← attachBlock d sb inode newBlock
    match inode with
    | none => some (.stuck, d, sb)
    | some inode =>
      let d := d.writeBlock newBlock (Vector.zeros blockSize)
      some (.grown { inode with blockCount := inode.blockCount + 1 }, d, sb)

/-- The growing loop of `write`. Each turn adds one to `block_count`, so the loop makes as many
turns as blocks are missing. -/
def growLoop : ℕ → Disk → SuperBlock → Inode → Option (Growth × Disk × SuperBlock)
  | 0, d, sb, inode => some (.grown inode, d, sb)
  | turns + 1, d, sb, inode => do
    let (growth, d, sb) ← growStep d sb inode
    match growth with
    | .grown inode => growLoop turns d sb inode
    | .full => some (.full, d, sb)
    | .stuck => some (.stuck, d, sb)

/-- The loop of `write` that stores the data, and whether it found all its blocks; every turn takes
at least one byte, so as many turns as bytes suffice. -/
def writeLoop (inode : Inode) : ℕ → Disk → ℕ → ℕ → List UInt8 → Option (Bool × Disk)
  | 0, d, _, _, _ => some (true, d)
  | turns + 1, d, blockIndex, blockOffset, data =>
    if data.length = 0 then some (true, d)
    else do
      match ← inode.getBlock d blockIndex with
      | none => some (false, d)
      | some b => do
        let buf ← d.readBlock b
        let toWrite := min data.length (pageSize - blockOffset)
        let d := d.writeBlock b (buf.copyAt blockOffset toWrite fun i => data[i]?.getD 0)
        writeLoop inode turns d (blockIndex + 1) 0 (data.drop toWrite)

/-- The number of blocks that a write needs, cut to 32 bits. -/
def requiredBlocks (offset : Int64) (writeSize : ℕ) : UInt32 :=
  ((offset.toUInt64 + .ofNat writeSize + .ofNat pageSize - 1) / .ofNat pageSize).toUInt32

def writeAttempt (fs : Fs) (ino : ℕ) (offset : Int64) (data : List UInt8) (now : ℕ → Int64) :
    Option Attempt := do
  let inode ← readInode fs.disk fs.sb (asU32 ino)
  let writeSize := data.length
  if writeSize = 0 then some (some (.written 0), fs)
  else
    let required := requiredBlocks offset writeSize
    if required > .ofNat maxFileBlocks then some (some (.error .EFBIG), fs)
    else do
      let turns := required.toUInt16.toNat - inode.blockCount.toNat
      let (growth, d, sb) ← growLoop turns fs.disk fs.sb inode
      match growth with
      | .full => some (some (.error .ENOSPC), ⟨d, sb⟩)
      | .stuck => some (none, ⟨d, sb⟩)
      | .grown inode =>
        let blockIndex := offset.toUInt64.toUInt32.toNat / pageSize
        let blockOffset := offset.toUInt64.toNat % pageSize
        let (found, d) ← writeLoop inode writeSize d blockIndex blockOffset data
        if !found then some (none, ⟨d, sb⟩)
        else
          let newSize := offset.toUInt64 + .ofNat writeSize
          let inode := if newSize > inode.size.toUInt64 then { inode with size := newSize.toUInt32 }
            else inode
          let inode := { inode with mtime := now 0, atime := now 0 }
          let d ← writeInode d sb inode
          some (some (.written (writeSize % 2 ^ 32)), ⟨d, sb⟩)

def write (fs : Fs) (ino : ℕ) (offset : Int64) (data : List UInt8) (now : ℕ → Int64) :
    Option (Reply × Fs) :=
  answered (fs.writeAttempt ino offset data now)

def unlink (fs : Fs) (parent : ℕ) (name : ByteArray) (now : ℕ → Int64) :
    Option (Reply × Fs) := do
  let nameStr := (String.fromUTF8? name).getD ""
  let parentInode ← readInode fs.disk fs.sb (asU32 parent)
  match ← dirFind fs.disk parentInode nameStr with
  | none => some (.error .ENOENT, fs)
  | some (entry, _, _) =>
    let inode ← readInode fs.disk fs.sb entry.inode.toNat
    if inode.isDir then some (.error .EISDIR, fs)
    else do
      let (d, sb) ← freeDataBlocks fs.disk fs.sb inode
      let (d, sb) ← freeIndirectBlock d sb inode
      let d ← writeInode d sb { inode with nlink := 0 }
      let (result, d, _) ← dirRemoveEntry d sb parentInode nameStr (now 0)
      match result with
      | .error _ => none
      | .ok () => some (.ok, ⟨d, sb⟩)

/-- The change of mode in `setattr`. -/
def setMode (inode : Inode) : Option UInt32 → Inode
  | some newMode =>
    { inode with mode := (inode.mode &&& 0xF000) ||| (newMode &&& 0o777).toUInt16 }
  | none => inode

/-- `setattr`: only the mode is looked at; `size` is accepted and ignored. -/
def setattr (fs : Fs) (ino : ℕ) (mode : Option UInt32) (_size : Option UInt64)
    (now : ℕ → Int64) : Option (Reply × Fs) := do
  let inode ← readInode fs.disk fs.sb (asU32 ino)
  let inode := { setMode inode mode with mtime := now 0 }
  let d ← writeInode fs.disk fs.sb inode
  some (.attr 1 (inodeToAttr inode), { fs with disk := d })

end Fs

/-- `format_new_fs`. -/
def formatNewFs (d : Disk) (now : Int64) : Option Fs := do
  let (d, sb) := initSuperblock d
  let d := Bitmap.initBitmap d sb
  let rootInodeNo := 1
  let rootInode := Inode.newDir rootInodeNo now
  let (rootDataBlock, d, sb) ← Bitmap.allocateBlock d sb
  let rootDataBlock ← rootDataBlock
  let d := d.writeBlock rootDataBlock (Fs.dotsBlock rootInodeNo rootInodeNo)
  let rootInode := { rootInode with
    directBlocks := rootInode.directBlocks.setIfInBounds 0 (.ofNat rootDataBlock)
    blockCount := 1
    size := .ofNat pageSize
    nlink := 2 }
  let d ← writeInode d sb rootInode
  let sb := { sb with rootInode := .ofNat rootInodeNo }
  some ⟨writeSuperblock d sb, sb⟩

/-- `mount`: an empty image is formatted, and so is one without a readable superblock. -/
def mount (image : List UInt8) (now : Int64) : Option Fs :=
  let d := Disk.ofImage image
  if d.size = 0 then formatNewFs (d.truncate diskSize) now
  else
    match readSuperblock d with
    | some sb => some ⟨d, sb⟩
    | none => formatNewFs (d.truncate diskSize) now

/-- The requests that the kernel can send. -/
inductive Request
  | getattr (ino : ℕ)
  | readdir (ino : ℕ) (offset : Int64) (full : List DirItem → DirItem → Bool)
  | lookup (parent : ℕ) (name : ByteArray)
  | openFile (ino : ℕ) (flags uid gid : UInt32)
  | read (ino : ℕ) (offset : Int64) (size : UInt32)
  | create (parent : ℕ) (name : ByteArray)
  | mkdir (parent : ℕ) (name : ByteArray)
  | rmdir (parent : ℕ) (name : ByteArray)
  | write (ino : ℕ) (offset : Int64) (data : List UInt8)
  | unlink (parent : ℕ) (name : ByteArray)
  | setattr (ino : ℕ) (mode : Option UInt32) (size : Option UInt64)

/-- The answer to one request. -/
def Fs.handle (fs : Fs) (now : ℕ → Int64) : Request → Option (Reply × Fs)
  | .getattr ino => fs.getattr ino
  | .readdir ino offset full => fs.readdir ino offset full
  | .lookup parent name => fs.lookup parent name
  | .openFile ino flags uid gid => fs.openFile ino flags uid gid
  | .read ino offset size => fs.read ino offset size
  | .create parent name => fs.create parent name now
  | .mkdir parent name => fs.mkdir parent name now
  | .rmdir parent name => fs.rmdir parent name now
  | .write ino offset data => fs.write ino offset data now
  | .unlink parent name => fs.unlink parent name now
  | .setattr ino mode size => fs.setattr ino mode size now

/-- The attempt at a request. -/
def Fs.attempt (fs : Fs) (now : ℕ → Int64) : Request → Option Attempt
  | .mkdir parent name => fs.mkdirAttempt parent name now
  | .write ino offset data => fs.writeAttempt ino offset data now
  | r => (fs.handle now r).map fun (reply, fs) => (some reply, fs)

theorem Fs.answered_eq_some {attempt : Option Attempt} {reply : Reply} {fs : Fs} :
    answered attempt = some (reply, fs) ↔ attempt = some (some reply, fs) := by
  rcases attempt with _ | ⟨_ | r, fs₁⟩ <;> simp [answered]

theorem Fs.answered_map (r : Option (Reply × Fs)) :
    answered (r.map fun (reply, fs) => (some reply, fs)) = r := by
  cases r <;> rfl

theorem Fs.handle_eq_answered (fs : Fs) (now : ℕ → Int64) (r : Request) :
    fs.handle now r = answered (fs.attempt now r) := by
  cases r with
  | mkdir => rfl
  | write => rfl
  | _ => exact (answered_map _).symm

end SimpleFS
