import SimpleFS.Foundation.Simulation
import SimpleFS.Spec.StoreChanges

/-! Every answer of the file system is one that the store it holds gives. -/
namespace SimpleFS
open NodeStore Overlay FiniteMap Function Runs

/-- The requests as the kernel sends them: those that only look name an inode that is in use, a
name to be created fits into an entry, and offsets count from the start of the file. -/
def Fs.Fits (fs : Fs) : Request → Prop
  | .getattr ino => InodeNo ino
  | .readdir ino _ _ | .openFile ino _ _ _ => fs.disk.Live ino
  | .lookup parent name => fs.disk.IsDirectory parent ∧ EntryName name
  | .read ino offset _ => (fs.disk.Live ino ∧ (fs.disk.inode ino).isDir = false) ∧ 0 ≤ offset.toInt
  | .create _ name | .mkdir _ name =>
    (Fs.nameOr "unknown" name).toByteArray.size ≤ maxNameLen
  | .write _ offset data =>
    0 ≤ offset.toInt ∧ offset.toInt.toNat + data.length ≤ pageSize * (2 ^ 32 - 1)
  | _ => True

variable {fs fs' : Fs} {reply : Reply} {now : ℕ → Int64}

section Looking

variable {n p : ℕ}

end Looking

section Naming

variable {p : ℕ} {name : ByteArray}

end Naming

section Files

variable {n : ℕ}

end Files

end SimpleFS
