import SimpleFS.Foundation.FiniteMap
import SimpleFS.Foundation.NodeStore
import SimpleFS.Foundation.Overlay
import SimpleFS.Requests.FileRuns
import SimpleFS.Requests.Readdir

/-! What the file system is for: a store of files with their bytes and directories with their names,
and the answers to the requests in its terms. Blocks, records, slots and time stamps are not seen
here. -/
namespace SimpleFS
open NodeStore Overlay FiniteMap Function

/-- A node has its mode. -/
abbrev FileNode := Node UInt16 String UInt8

abbrev FileStore := Store UInt16 String UInt8

def FileNode.kind (node : FileNode) : FileType :=
  if Node.isDir node then .directory else .regularFile

/-- The reported attributes are those of node `n`. -/
structure FileAttr.Describes (attr : FileAttr) (n : ℕ) (node : FileNode) : Prop where
  ino : attr.ino = n
  perm : attr.perm = node.attr
  kind : attr.kind = FileNode.kind node
  nlink : attr.nlink = if Node.isDir node then 2 else 1
  size : ∀ m bytes, node = .file m bytes → attr.size = bytes.length

namespace FileStore

/-- The names that every directory `n` in `p` has. -/
def dots (n p : ℕ) : String → Option ℕ :=
  update (update (fun _ => none) ".." (some p)) "." (some n)

/-- A directory that holds no other names. -/
def OnlyDots (names : String → Option ℕ) : Prop := ∀ s, names s ≠ none → s = "." ∨ s = ".."

/-- The store of a new file system: an empty root. -/
def initial : FileStore := update (fun _ => none) 1 (some (.dir (sIfDir ||| 0o755) (dots 1 1)))

/-- The number that a new node gets: the first one from `first` to `last` that is not in use. -/
structure IsNext (t : FileStore) (first last n : ℕ) : Prop where
  low : first ≤ n
  high : n ≤ last
  unused : t n = none
  least : ∀ k, first ≤ k → k < n → t k ≠ none

/-- The items number all the names of a directory from one. -/
structure Numbers (t : FileStore) (items : List DirItem) (names : String → Option ℕ) : Prop where
  lists : Lists (fun i => some i.name) DirItem.ino items names
  offsets : items.map DirItem.offset = List.range' 1 items.length
  kinds : ∀ i ∈ items, i.name ≠ "." → i.name ≠ ".." →
    ∃ node, t i.ino = some node ∧ i.kind = FileNode.kind node

/-- The mode after `setattr`: its type stays. -/
def newMode (m : UInt16) : Option UInt32 → UInt16
  | some mode => (m &&& 0xF000) ||| (mode &&& 0o777).toUInt16
  | none => m

/-- `O_WRONLY` or `O_RDWR`. -/
def WantsWrite (flags : UInt32) : Prop := flags &&& 1 ≠ 0 ∨ flags &&& 2 ≠ 0

/-- The store `t` answers the request with the reply, and is another store then. What the reply
depends on besides the store, such as the free space, is left open. -/
inductive Answers (t : FileStore) : Request → Reply → FileStore → Prop
  | attr {n node attr} : t n = some node → attr.Describes n node →
      Answers t (.getattr n) (.attr 1 attr) t
  | noAttr {n} : t n = none → Answers t (.getattr n) (.error .ENOENT) t
  | listing {n m names offset full items} : t n = some (.dir m names) → Numbers t items names →
      Answers t (.readdir n offset full)
        (.directory (fill full [] (items.drop offset.toInt.toNat))) t
  | noListing {n m bytes offset full} : t n = some (.file m bytes) →
      Answers t (.readdir n offset full) (.error .ENOTDIR) t
  | found {p m names name c node attr} : t p = some (.dir m names) →
      names (Fs.nameOr "" name) = some c → t c = some node → attr.Describes c node →
      Answers t (.lookup p name) (.entry 1 attr 0) t
  | notFound {p m names name} : t p = some (.dir m names) → names (Fs.nameOr "" name) = none →
      Answers t (.lookup p name) (.error .ENOENT) t
  | opened {n node flags uid gid} : t n = some node →
      (WantsWrite flags → node.attr &&& 0o222 ≠ 0) →
      Answers t (.openFile n flags uid gid) (.opened n 0) t
  | denied {n node flags uid gid} : t n = some node → WantsWrite flags → node.attr &&& 0o222 = 0 →
      Answers t (.openFile n flags uid gid) (.error .EACCES) t
  | data {n m bytes offset size} : t n = some (.file m bytes) →
      Answers t (.read n offset size)
        (.data ((bytes.drop offset.toInt.toNat).take size.toNat)) t
  -- Without a slot for the entry, the new file stays behind with no name.
  | created {p m names name n attr} : t p = some (.dir m names) →
      names (Fs.nameOr "unknown" name) = none → IsNext t 1000 2000 n →
      attr.Describes n (.file (sIfReg ||| 0o644) []) →
      Answers t (.create p name) (.created 1 attr 0 n 0)
        (t.link p m names (Fs.nameOr "unknown" name) n (.file (sIfReg ||| 0o644) []))
  | created_exists {p m names name} : t p = some (.dir m names) →
      names (Fs.nameOr "unknown" name) ≠ none → Answers t (.create p name) (.error .EEXIST) t
  | created_noNumber {p m names name} : t p = some (.dir m names) →
      names (Fs.nameOr "unknown" name) = none → (∀ n, 1000 ≤ n → n ≤ 2000 → t n ≠ none) →
      Answers t (.create p name) (.error .ENOSPC) t
  | created_nameless {p m names name n} : t p = some (.dir m names) →
      names (Fs.nameOr "unknown" name) = none → 1000 ≤ n → n ≤ 2000 → t n = none →
      Answers t (.create p name) (.error .ENOSPC)
        (update t n (some (.file (sIfReg ||| 0o644) [])))
  | made {p m names name n attr} : t p = some (.dir m names) →
      names (Fs.nameOr "unknown" name) = none → IsNext t 500 900 n →
      attr.Describes n (.dir (sIfDir ||| 0o755) (dots n p)) →
      Answers t (.mkdir p name) (.entry 1 attr 0)
        (t.link p m names (Fs.nameOr "unknown" name) n (.dir (sIfDir ||| 0o755) (dots n p)))
  | made_exists {p m names name} : t p = some (.dir m names) →
      names (Fs.nameOr "unknown" name) ≠ none → Answers t (.mkdir p name) (.error .EEXIST) t
  | made_noSpace {p m names name} : t p = some (.dir m names) →
      names (Fs.nameOr "unknown" name) = none → Answers t (.mkdir p name) (.error .ENOSPC) t
  | unlinked {p m names name c m' bytes} : t p = some (.dir m names) →
      names (Fs.nameOr "" name) = some c → t c = some (.file m' bytes) →
      Answers t (.unlink p name) .ok (t.unlink p m names (Fs.nameOr "" name) c)
  | unlinked_dir {p m names name c m' names'} : t p = some (.dir m names) →
      names (Fs.nameOr "" name) = some c → t c = some (.dir m' names') →
      Answers t (.unlink p name) (.error .EISDIR) t
  | unlinked_missing {p m names name} : t p = some (.dir m names) →
      names (Fs.nameOr "" name) = none → Answers t (.unlink p name) (.error .ENOENT) t
  | removed {p m names name c m' names'} : t p = some (.dir m names) →
      names (Fs.nameOr "" name) = some c → t c = some (.dir m' names') → OnlyDots names' →
      Answers t (.rmdir p name) .ok (t.unlink p m names (Fs.nameOr "" name) c)
  | removed_full {p m names name c m' names'} : t p = some (.dir m names) →
      names (Fs.nameOr "" name) = some c → t c = some (.dir m' names') → ¬ OnlyDots names' →
      Answers t (.rmdir p name) (.error .ENOTEMPTY) t
  | removed_file {p m names name c m' bytes} : t p = some (.dir m names) →
      names (Fs.nameOr "" name) = some c → t c = some (.file m' bytes) →
      Answers t (.rmdir p name) (.error .ENOTDIR) t
  | removed_missing {p m names name} : t p = some (.dir m names) →
      names (Fs.nameOr "" name) = none → Answers t (.rmdir p name) (.error .ENOENT) t
  | written {n m bytes offset data} : t n = some (.file m bytes) → data ≠ [] →
      offset.toInt.toNat + data.length ≤ maxFileSize →
      Answers t (.write n offset data) (.written data.length)
        (update t n (some (.file m (overwrite 0 bytes offset.toInt.toNat data))))
  | written_nothing {n m bytes offset} : t n = some (.file m bytes) →
      Answers t (.write n offset []) (.written 0) t
  | written_tooBig {n m bytes offset data} : t n = some (.file m bytes) → data ≠ [] →
      maxFileSize < offset.toInt.toNat + data.length →
      Answers t (.write n offset data) (.error .EFBIG) t
  | written_noSpace {n m bytes offset data} : t n = some (.file m bytes) → data ≠ [] →
      bytes.length < offset.toInt.toNat + data.length →
      offset.toInt.toNat + data.length ≤ maxFileSize →
      Answers t (.write n offset data) (.error .ENOSPC) t
  -- The size is not looked at.
  | changed {n node mode size attr} : t n = some node →
      attr.Describes n (node.setAttr (newMode node.attr mode)) →
      Answers t (.setattr n mode size) (.attr 1 attr)
        (update t n (some (node.setAttr (newMode node.attr mode))))

end FileStore

end SimpleFS
