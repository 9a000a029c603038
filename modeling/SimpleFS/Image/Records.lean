import SimpleFS.Bitmap
import SimpleFS.Inode

/-! The inode table as an array of records, for the layout that formatting writes. -/
namespace SimpleFS

/-- The inode numbers in use: the root, those that `mkdir` hands out, those of `create`. -/
def InodeNo (n : ℕ) : Prop := n = 1 ∨ (500 ≤ n ∧ n ≤ 900) ∨ (1000 ≤ n ∧ n ≤ 2000)

instance (n : ℕ) : Decidable (InodeNo n) := inferInstanceAs (Decidable (_ ∨ _))

/-- The block that holds the record of inode `n`. -/
def recordBlock (n : ℕ) : ℕ := 6 + n / 6

/-- A block that holds a record of the inode numbers in use. -/
def IsRecordBlock (b : ℕ) : Prop := ∃ n, InodeNo n ∧ recordBlock n = b

theorem InodeNo.le {n : ℕ} (h : InodeNo n) : n ≤ 2000 := by
  rcases h with h | h | h <;> omega

theorem InodeNo.recordBlock_lt {n : ℕ} (h : InodeNo n) : recordBlock n < 20480 := by
  have := h.le
  unfold recordBlock
  omega

theorem six_le_recordBlock (n : ℕ) : 6 ≤ recordBlock n := Nat.le_add_right _ _

theorem inodeBlockLocation_eq {sb : SuperBlock} {n : ℕ}
    (h : sb.inodeTableStart.toNat + n / 6 < 2 ^ 32) :
    inodeBlockLocation sb n = (sb.inodeTableStart.toNat + n / 6, n % 6 * 84) := by
  simp only [inodeBlockLocation, blockSize, inodeSize, Nat.reduceDiv, Prod.mk.injEq, and_true]
  rw [UInt32.toNat_add, UInt32.toNat_ofNat', Nat.mod_eq_of_lt (show n / 6 < 2 ^ 32 by omega),
    Nat.mod_eq_of_lt h]

theorem Layout.inodeBlockLocation {sb : SuperBlock} (h : Layout sb) {n : ℕ} (hn : n < 2 ^ 32) :
    inodeBlockLocation sb n = (recordBlock n, n % 6 * 84) := by
  have h6 : sb.inodeTableStart.toNat = 6 := by rw [h.inodeTableStart]; rfl
  rw [inodeBlockLocation_eq (by omega), h6, recordBlock]

namespace Disk

/-- The record of inode `n`. -/
def inode (d : Disk) (n : ℕ) : Inode :=
  .fromBytes n ((d.block (recordBlock n)).slice (n % 6 * 84) inodeSize)

/-- The disk with `inode` stored in its record. -/
def putInode (d : Disk) (inode : Inode) : Disk :=
  let n := inode.inodeNo.toNat
  d.writeBlock (recordBlock n)
    ((d.block (recordBlock n)).copyAt (n % 6 * 84) inodeSize inode.toBytes.byteAt)

theorem inodeNo_inode (d : Disk) (n : ℕ) : (d.inode n).inodeNo = .ofNat n := rfl

theorem toNat_inodeNo_inode (d : Disk) {n : ℕ} (hn : n < 2 ^ 32) :
    (d.inode n).inodeNo.toNat = n := by
  rw [inodeNo_inode, UInt32.toNat_ofNat']
  exact Nat.mod_eq_of_lt hn

theorem inode_eq_of_block_eq {d d' : Disk} {n : ℕ}
    (h : d'.block (recordBlock n) = d.block (recordBlock n)) : d'.inode n = d.inode n := by
  rw [inode, inode, h]

theorem inode_writeBlock_of_ne (d : Disk) {b n : ℕ} (buf : Block) (h : recordBlock n ≠ b) :
    (d.writeBlock b buf).inode n = d.inode n :=
  inode_eq_of_block_eq (block_writeBlock_of_ne d buf h)

/-- Storing a record changes that record only, also where six share a block. -/
theorem inode_putInode (d : Disk) (inode : Inode) (n : ℕ) :
    (d.putInode inode).inode n = if n = inode.inodeNo.toNat then inode else d.inode n := by
  by_cases hblock : recordBlock n = recordBlock inode.inodeNo.toNat
  · rw [Disk.inode, putInode, hblock, block_writeBlock_self]
    unfold recordBlock at hblock
    split_ifs with hn
    · subst hn
      rw [Vector.slice_copyAt_self _ _ (by simp only [inodeSize, blockSize]; omega)]
      exact inode.fromBytes_toBytes
    · rw [Vector.slice_copyAt_of_disjoint _ _ (by simp only [inodeSize]; omega), Disk.inode]
      simp only [recordBlock, hblock]
  · rw [if_neg (fun hn => hblock (by rw [hn]))]
    exact inode_writeBlock_of_ne d _ hblock

theorem inode_putInode_self (d : Disk) (inode : Inode) :
    (d.putInode inode).inode inode.inodeNo.toNat = inode := by
  rw [inode_putInode, if_pos rfl]

theorem block_putInode (d : Disk) (inode : Inode) {b : ℕ}
    (h : b ≠ recordBlock inode.inodeNo.toNat) : (d.putInode inode).block b = d.block b :=
  block_writeBlock_of_ne d _ h

theorem bit_putInode (d : Disk) (inode : Inode) {c : ℕ} (hc : c < 20480) :
    (d.putInode inode).bit c = d.bit c :=
  Bitmap.bit_writeBlock_of_le d _ (Or.inl (six_le_recordBlock _)) hc

theorem Sized.putInode {d : Disk} (h : d.Sized) {inode : Inode}
    (hn : recordBlock inode.inodeNo.toNat < 20480) : (d.putInode inode).Sized :=
  h.writeBlock hn _

end Disk

theorem Disk.Sized.readInode {d : Disk} (hd : d.Sized) {sb : SuperBlock} (hl : Layout sb) {n : ℕ}
    (hn : recordBlock n < 20480) : readInode d sb n = some (d.inode n) := by
  have hlt : n < 2 ^ 32 := by
    unfold recordBlock at hn
    omega
  rw [SimpleFS.readInode, hl.inodeBlockLocation hlt]
  dsimp only
  rw [hd.readBlock hn]
  rfl

theorem Disk.Sized.readInode_eq_some {d : Disk} (hd : d.Sized) {sb : SuperBlock} (hl : Layout sb)
    {n : ℕ} {inode : Inode} (hn : n < 2 ^ 32) (h : SimpleFS.readInode d sb n = some inode) :
    recordBlock n < 20480 ∧ inode = d.inode n := by
  rw [SimpleFS.readInode, hl.inodeBlockLocation hn] at h
  obtain ⟨buf, hbuf, hinode⟩ := Option.bind_eq_some_iff.mp h
  obtain ⟨hlt, rfl⟩ := hd.readBlock_eq_some hbuf
  exact ⟨hlt, (Option.some.inj hinode).symm⟩

theorem Disk.Sized.writeInode {d : Disk} (hd : d.Sized) {sb : SuperBlock} (hl : Layout sb)
    {inode : Inode} (hn : recordBlock inode.inodeNo.toNat < 20480) :
    writeInode d sb inode = some (d.putInode inode) := by
  rw [SimpleFS.writeInode, hl.inodeBlockLocation inode.inodeNo.toNat_lt]
  dsimp only
  rw [hd.readBlock hn]
  rfl

namespace Bitmap

theorem BitUpdate.inode {d d' : Disk} {sb' : SuperBlock} {b : ℕ} {v : Bool}
    (h : BitUpdate d d' sb' b v) (n : ℕ) : d'.inode n = d.inode n :=
  Disk.inode_eq_of_block_eq (h.block _ (six_le_recordBlock n))

end Bitmap

end SimpleFS
