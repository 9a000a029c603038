import SimpleFS.Requests.NameMap
import SimpleFS.Requests.Naming
import SimpleFS.Spec.FileStore

/-! The store that a disk holds. -/
namespace SimpleFS
open NodeStore Overlay FiniteMap Function

/-- The inodes that the names of a directory lead to. -/
def Inode.names (d : Disk) (dir : Inode) (s : String) : Option ℕ :=
  ((dir.entries d).find? fun e => e.nameStr == some s).map fun e => e.inode.toNat

/-- The bytes of a file. -/
def Inode.bytes (d : Disk) (i : Inode) : List UInt8 := window (i.content d) 0 i.size.toNat

/-- The node that inode `n` is, when it is in use. -/
def Disk.node (d : Disk) (n : ℕ) : Option FileNode :=
  if d.Live n then
    some (if (d.inode n).isDir then .dir (d.inode n).mode ((d.inode n).names d)
      else .file (d.inode n).mode ((d.inode n).bytes d))
  else none

def Fs.store (fs : Fs) : FileStore := fs.disk.node

/-- Inode `n` has the links of its kind; a directory reads as a map of its names, and a file holds
nothing past its size. -/
structure Disk.NodeSound (d : Disk) (n : ℕ) : Prop where
  nlink : (d.inode n).nlink = if (d.inode n).isDir then 2 else 1
  listing : (d.inode n).isDir = true → d.Listing DirEntry.nameStr n
  fits : (d.inode n).isDir = false →
    (d.inode n).size.toNat ≤ 510 * (d.inode n).blockCount.toNat
  rest : (d.inode n).isDir = false → ∀ x, (d.inode n).size.toNat ≤ x → (d.inode n).content d x = 0

/-- A state with a sound tree in which every inode in use is a node. The free count may be wrong, as it
is after a crash. -/
structure StoreSound (fs : Fs) : Prop extends Consistent fs where
  synced : fs.Synced
  mapped : fs.disk.AllMapped
  tree : TreeSound fs.disk
  nodes : ∀ n, fs.disk.Live n → fs.disk.NodeSound n

section Node

variable {d d' : Disk} {n p : ℕ}

theorem node_of_isDirectory (h : d.IsDirectory n) :
    d.node n = some (.dir (d.inode n).mode ((d.inode n).names d)) := by
  unfold Disk.node
  rw [if_pos h.1, if_pos h.2]

theorem node_of_file (h : d.Live n) (hfile : (d.inode n).isDir = false) :
    d.node n = some (.file (d.inode n).mode ((d.inode n).bytes d)) := by
  unfold Disk.node
  rw [if_pos h, if_neg (by simp [hfile])]

theorem node_eq_none_iff : d.node n = none ↔ ¬ d.Live n := by
  unfold Disk.node
  split_ifs with h <;> simp [h]

theorem node_ne_none_iff : d.node n ≠ none ↔ d.Live n := by
  rw [ne_eq, node_eq_none_iff, not_not]

theorem Untouched.node (h : Untouched d d' n) (hm : d.Live n → (d.inode n).Mapped d) :
    d'.node n = d.node n := by
  by_cases hn : d.Live n
  · unfold Disk.node Inode.names Inode.bytes
    rw [if_pos hn, if_pos (h.live.mpr hn), h.entries, h.content (hm hn), h.inode]
  · rw [node_eq_none_iff.mpr hn, node_eq_none_iff, h.live]
    exact hn

theorem Untouched.nodeSound (h : Untouched d d' n) (hm : (d.inode n).Mapped d)
    (hs : d.NodeSound n) : d'.NodeSound n where
  nlink := by rw [h.inode]; exact hs.nlink
  listing hdir := (hs.listing (h.inode ▸ hdir)).of_entries h.entries
  fits hfile := by rw [h.inode] at hfile ⊢; exact hs.fits hfile
  rest hfile := by
    rw [h.inode] at hfile
    rw [h.content hm, h.inode]
    exact hs.rest hfile

end Node

section Names

variable {d : Disk} {dir : Inode} {m : String → Option ℕ} {s : String}

/-- The entries make the map `m` of names. -/
abbrev Inode.Lists (d : Disk) (dir : Inode) (m : String → Option ℕ) : Prop :=
  FiniteMap.Lists DirEntry.nameStr (fun e => e.inode.toNat) (dir.entries d) m

theorem Inode.Lists.names_eq (h : dir.Lists d m) : dir.names d = m :=
  funext fun s => h.find?_map s

theorem Disk.Listing.lists {p : ℕ} (h : d.Listing DirEntry.nameStr p) :
    (d.inode p).Lists d ((d.inode p).names d) :=
  FiniteMap.Lists.of_nodup h.readable h.distinct

theorem names_eq_none_of_lacks (h : dir.Lacks d s) : dir.names d s = none := by
  unfold Inode.names
  rw [Option.map_eq_none_iff, List.find?_eq_none]
  intro e he
  simpa [DirEntry.named] using (h e he).2

theorem Names.names_eq {p : ℕ} {e : DirEntry} (h : Names d p s e) :
    (d.inode p).names d s = some e.inode.toNat := by
  obtain ⟨place, pre, post, hfirst⟩ := h
  unfold Inode.names
  rw [← Inode.find?_slots, hfirst.find?]
  rfl

end Names

end SimpleFS
