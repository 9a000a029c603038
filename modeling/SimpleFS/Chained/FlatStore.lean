import SimpleFS.Chained.Separate

/-! What the directory of the C implementation is for: one name space of files, of which it shows
the names, the sizes and the times. The chains and the entries are not seen here. -/
namespace SimpleFS.Chained
open Function

/-- What `simplefs_getattr` tells about a file. -/
structure FlatFile where
  size : ℕ
  mtime : Int64

/-- The files by their names. -/
abbrev FlatStore := List UInt8 → Option FlatFile

namespace FlatStore

/-- The store `t` answers the request with the result, and is another store then. What the result
depends on besides the store, such as the free space, is left open. -/
inductive Answers (t : FlatStore) (now : Int64) : Request → ℤ → FlatStore → Prop
  | created {path} : path.name.length ≤ filenameLen → t path.name = none →
      Answers t now (.create path) 0 (update t path.name (some ⟨0, now⟩))
  | created_long {path} : filenameLen < path.name.length →
      Answers t now (.create path) (-ENAMETOOLONG) t
  | created_exists {path} : t path.name ≠ none → Answers t now (.create path) (-EEXIST) t
  | created_noSpace {path} : path.name.length ≤ filenameLen → t path.name = none →
      Answers t now (.create path) (-ENOSPC) t
  | written {path offset data f} : t path.name = some f →
      offset + data.length ≤ maxFileBlocks * pageSize →
      Answers t now (.write path offset data) data.length
        (update t path.name (some ⟨max f.size (offset + data.length), now⟩))
  -- The block number of a file with a full name runs on from it, and the entry is not stored.
  | written_lost {path offset data f} : t path.name = some f →
      offset + data.length ≤ maxFileBlocks * pageSize → path.name.length = filenameLen →
      Answers t now (.write path offset data) data.length t
  | written_tooBig {path offset data} : t path.name ≠ none →
      maxFileBlocks * pageSize < offset + data.length →
      Answers t now (.write path offset data) (-EFBIG) t
  | written_noSpace {path offset data} : t path.name ≠ none →
      offset + data.length ≤ maxFileBlocks * pageSize →
      Answers t now (.write path offset data) (-ENOSPC) t
  | written_missing {path offset data} : t path.name = none →
      Answers t now (.write path offset data) (-ENOENT) t
  | unlinked {path} : t path.name ≠ none →
      Answers t now (.unlink path) 0 (update t path.name none)
  | unlinked_missing {path} : t path.name = none → Answers t now (.unlink path) (-ENOENT) t

def Steps (t : FlatStore) (e : Event) (t' : FlatStore) : Prop :=
  Answers t e.now e.request e.result t'

/-- What `simplefs_getattr` tells. -/
def stat (t : FlatStore) (path : Path) : Except ℤ Stat :=
  if path.bytes = [0x2F] then .ok ⟨0o040755, 2, 0, 0⟩
  else match t path.name with
    | some f => .ok ⟨0o100444, 1, f.size, f.mtime⟩
    | none => .error (-ENOENT)

/-- What `simplefs_open` answers: the files are only read through it. -/
def opened (t : FlatStore) (path : Path) (flags : UInt32) : ℤ :=
  match t path.name with
  | some _ => if flags &&& 3 ≠ 0 then -EACCES else 0
  | none => -ENOENT

end FlatStore

end SimpleFS.Chained
