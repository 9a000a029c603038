import SimpleFS.Spec.StoreChanges

/-! Disks that differ only in what no request sees: the times, the bitmap, the free count and the
blocks that no inode refers to. -/
namespace SimpleFS
open NodeStore Overlay

/-- Inode `j` is `i` at another time. -/
structure Inode.Redated (j i : Inode) : Prop extends SameMap j i where
  mode : j.mode = i.mode
  nlink : j.nlink = i.nlink
  size : j.size = i.size

theorem Inode.Redated.refl (i : Inode) : i.Redated i := ⟨⟨rfl, rfl, rfl, rfl⟩, rfl, rfl, rfl⟩

theorem Inode.Redated.isDir {i j : Inode} (h : j.Redated i) : j.isDir = i.isDir := by
  rw [Inode.isDir, Inode.isDir, h.mode]

namespace Disk

/-- The records are the same up to their times, and the inodes in use have the same data blocks. -/
structure Alike (d c : Disk) : Prop where
  inode : ∀ n, InodeNo n → (c.inode n).Redated (d.inode n)
  ptr : ∀ n, d.Live n → ∀ k < (d.inode n).blockCount.toNat,
    (d.inode n).ptr c k = (d.inode n).ptr d k
  block : ∀ n, d.Live n → ∀ b ∈ (d.inode n).blocks d, c.block b = d.block b

/-- What a disk needs for its tree and its files to be sound, whatever its bitmap says. -/
structure Whole (d : Disk) : Prop where
  mapped : d.AllMapped
  tree : TreeSound d
  nodes : ∀ n, d.Live n → d.NodeSound n

namespace Alike

variable {d c : Disk} {n : ℕ}

theorem of_refs (hinode : ∀ n, InodeNo n → (c.inode n).Redated (d.inode n))
    (hblock : ∀ n, d.Live n → ∀ b ∈ (d.inode n).refs d, c.block b = d.block b) : d.Alike c where
  inode := hinode
  ptr n hn k _ := Inode.ptr_congr (fun hi => hblock n hn _ (Inode.indirectBlock_mem_refs hi)) k
  block n hn _ hb := hblock n hn _ (Inode.mem_refs_of_mem_blocks hb)

theorem of_inode (hinode : ∀ n, InodeNo n → c.inode n = d.inode n)
    (hblock : ∀ n, d.Live n → ∀ b ∈ (d.inode n).refs d, c.block b = d.block b) : d.Alike c := by
  refine of_refs (fun n hn => ?_) hblock
  rw [hinode n hn]
  exact .refl _

theorem live (h : d.Alike c) : c.Live n ↔ d.Live n := by
  constructor
  · intro hn
    exact ⟨hn.1, by rw [← (h.inode n hn.1).nlink]; exact hn.2⟩
  · intro hn
    exact ⟨hn.1, by rw [(h.inode n hn.1).nlink]; exact hn.2⟩

theorem blocks (h : d.Alike c) (hn : d.Live n) : (c.inode n).blocks c = (d.inode n).blocks d := by
  rw [(h.inode n hn.1).blocks, Inode.blocks, Inode.blocks]
  apply List.filterMap_congr
  intro k hk
  rw [h.ptr n hn k (List.mem_range.mp hk)]

theorem entries (h : d.Alike c) (hn : d.Live n) :
    (c.inode n).entries c = (d.inode n).entries d := by
  have hslots : (c.inode n).slots c = (d.inode n).slots d := by
    rw [Inode.slots, Inode.slots, h.blocks hn]
    apply List.flatMap_congr
    intro b hb
    rw [h.block n hn b hb]
  rw [Inode.entries, Inode.table, hslots, Inode.entries, Inode.table]

theorem mapped (h : d.Alike c) (hn : d.Live n) (hm : (d.inode n).Mapped d) :
    (c.inode n).Mapped c := by
  refine (h.inode n hn.1).mapped _ fun k hk => ?_
  rw [h.ptr n hn k hk]
  exact hm k hk

theorem content (h : d.Alike c) (hn : d.Live n) (hm : (d.inode n).Mapped d) :
    (c.inode n).content c = (d.inode n).content d := by
  rw [(h.inode n hn.1).content]
  funext x
  unfold Inode.content
  split_ifs with hx
  · have hk : x / 510 < (d.inode n).blockCount.toNat := by omega
    rw [Inode.byte, Inode.byte, h.ptr n hn _ hk, h.block n hn _ (Inode.mem_blocks_of_ptr hk (hm _ hk))]
  · rfl

theorem symm (h : d.Alike c) : c.Alike d where
  inode n hn := by
    obtain ⟨⟨hno, hcount, hdirect, hind⟩, hmode, hnlink, hsize⟩ := h.inode n hn
    exact ⟨⟨hno.symm, hcount.symm, hdirect.symm, hind.symm⟩, hmode.symm, hnlink.symm, hsize.symm⟩
  ptr n hn k hk := by
    have hold := h.live.mp hn
    have hrec := h.inode n hn.1
    rw [hrec.ptr, hrec.ptr]
    exact (h.ptr n hold k (hrec.blockCount ▸ hk)).symm
  block n hn b hb := by
    have hold := h.live.mp hn
    rw [h.blocks hold] at hb
    exact (h.block n hold b hb).symm

theorem allMapped (h : d.Alike c) (hm : d.AllMapped) : c.AllMapped := fun n hn =>
  h.mapped (h.live.mp hn) (hm n (h.live.mp hn))

/-- Both disks hold the same store. -/
theorem node (h : d.Alike c) (hm : d.AllMapped) : c.node = d.node := by
  funext n
  by_cases hn : d.Live n
  · have hrec := h.inode n hn.1
    unfold Disk.node Inode.names Inode.bytes
    rw [if_pos hn, if_pos (h.live.mpr hn), h.entries hn, h.content hn (hm n hn), hrec.isDir,
      hrec.mode, hrec.size]
  · rw [node_eq_none_iff.mpr hn, node_eq_none_iff, h.live]
    exact hn

theorem sameTree (h : d.Alike c) : SameTree d c where
  node _ hq := ⟨h.live, fun _ => (h.inode _ hq.1).isDir, fun _ => h.entries hq⟩
  unused _ hq hdir := hq (h.live.mp hdir.1)

theorem nodeSound (h : d.Alike c) (hm : d.AllMapped) (hn : d.Live n) (hs : d.NodeSound n) :
    c.NodeSound n := by
  have hrec := h.inode n hn.1
  constructor
  · rw [hrec.nlink, hrec.isDir]
    exact hs.nlink
  · rw [hrec.isDir]
    exact fun hdir => (hs.listing hdir).of_entries (h.entries hn)
  · rw [hrec.isDir, hrec.size, hrec.blockCount]
    exact hs.fits
  · rw [hrec.isDir, hrec.size, h.content hn (hm n hn)]
    exact hs.rest

theorem whole (h : d.Alike c) (hw : d.Whole) : c.Whole where
  mapped := h.allMapped hw.mapped
  tree := h.sameTree.treeSound hw.tree
  nodes _ hn := h.nodeSound hw.mapped (h.live.mp hn) (hw.nodes _ (h.live.mp hn))

end Alike

/-- `T` cannot tell disks apart that are alike. -/
def Blind (T : Disk → Prop) : Prop := ∀ d c, d.AllMapped → d.Alike c → T d → T c

theorem blind_node (P : FileStore → Prop) : Blind fun d => P d.node := by
  intro d c hm h hP
  rwa [h.node hm]

theorem blind_whole : Blind Whole := fun _ _ _ h hw => h.whole hw

end Disk

end SimpleFS
