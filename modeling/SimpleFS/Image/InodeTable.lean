import SimpleFS.Image.Records

/-! The inode table as an array of records, wherever the superblock puts it. -/
namespace SimpleFS

/-- The last two bytes of a record are not used. -/
abbrev inodeFieldsEnd : ℕ := 82

/-- Parsing a record and serializing it restores every byte but the padding. -/
theorem Inode.toBytes_fromBytes (n : ℕ) (data : Vector UInt8 inodeSize) :
    Vector.AgreeTo inodeFieldsEnd (fromBytes n data).toBytes data := by
  have hdirect : ∀ i < directBlockCount,
      ((fromBytes n data).direct i).toNat = data.readLE (38 + i * 4) 4 := by
    intro i hi
    rw [direct, fromBytes, Vector.getElem?_eq_getElem hi, Option.getD_some, Vector.getElem_ofFn]
    exact data.toNat_u32_readLE _
  have h0 := Vector.AgreeTo.zero (Vector.zeros inodeSize) data
  have h2 := h0.copyAt (by decide) (data.toNat_u16_readLE 0)
  have h4 := h2.copyAt (by decide) (data.toNat_u16_readLE 2)
  have h6 := h4.copyAt (by decide) (data.toNat_u16_readLE 4)
  have h10 := h6.copyAt (by decide) (data.toNat_u32_readLE 6)
  have h12 := h10.copyAt (by decide) (data.toNat_u16_readLE 10)
  have h14 := h12.copyAt (by decide) (data.toNat_u16_readLE 12)
  have h22 := h14.copyAt (by decide) (data.toNat_i64_readLE 14)
  have h30 := h22.copyAt (by decide) (data.toNat_i64_readLE 22)
  have h38 := h30.copyAt (by decide) (data.toNat_i64_readLE 30)
  have h78 := h38.copyArray (by decide) hdirect
  exact h78.copyAt (by decide) (data.toNat_u32_readLE (38 + directBlockCount * 4))

/-- The block of the record of inode `n` is on the disk. -/
def RecordOnDisk (d : Disk) (sb : SuperBlock) (n : ℕ) : Prop :=
  sb.inodeTableStart.toNat + n / 6 < maxBlocks ∧
    (sb.inodeTableStart.toNat + n / 6 + 1) * blockSize ≤ d.size

/-- Where the record of inode `n` starts, in bytes. -/
def recordOffset (sb : SuperBlock) (n : ℕ) : ℕ :=
  (sb.inodeTableStart.toNat + n / 6) * blockSize + n % 6 * inodeSize

/-- What `write_inode` is to the rest of the program: the update of one record of an array. -/
structure RecordUpdate (d d' : Disk) (sb : SuperBlock) (inode : Inode) : Prop where
  size : d'.size = d.size
  self : readInode d' sb inode.inodeNo.toNat = some inode
  other : ∀ m, m ≠ inode.inodeNo.toNat → RecordOnDisk d sb m → readInode d' sb m = readInode d sb m
  frame : ∀ k, k < recordOffset sb inode.inodeNo.toNat ∨
    recordOffset sb inode.inodeNo.toNat + inodeSize ≤ k → d'.byte k = d.byte k

namespace RecordOnDisk

variable {d : Disk} {sb : SuperBlock} {n : ℕ} {inode : Inode}

theorem inodeBlockLocation (h : RecordOnDisk d sb n) :
    inodeBlockLocation sb n = (sb.inodeTableStart.toNat + n / 6, n % 6 * 84) :=
  inodeBlockLocation_eq (h.1.trans (by decide))

theorem readBlock (h : RecordOnDisk d sb n) :
    d.readBlock (sb.inodeTableStart.toNat + n / 6) =
      some (d.block (sb.inodeTableStart.toNat + n / 6)) := Disk.readBlock_of_le h.2

theorem readInode (h : RecordOnDisk d sb n) :
    readInode d sb n = some (.fromBytes n
      ((d.block (sb.inodeTableStart.toNat + n / 6)).slice (n % 6 * 84) inodeSize)) := by
  rw [SimpleFS.readInode, h.inodeBlockLocation]
  dsimp only
  rw [h.readBlock]
  rfl

theorem writeInode (h : RecordOnDisk d sb inode.inodeNo.toNat) :
    writeInode d sb inode = some (d.writeBlock (sb.inodeTableStart.toNat + inode.inodeNo.toNat / 6)
      ((d.block (sb.inodeTableStart.toNat + inode.inodeNo.toNat / 6)).copyAt
        (inode.inodeNo.toNat % 6 * 84) inodeSize inode.toBytes.byteAt)) := by
  rw [SimpleFS.writeInode, h.inodeBlockLocation]
  dsimp only
  rw [h.readBlock]
  rfl

end RecordOnDisk

namespace Disk

theorem byte_writeBlock_of_block {d : Disk} {b : ℕ} {buf : Block} {k : ℕ}
    (h : b * blockSize ≤ k ∧ k < (b + 1) * blockSize →
      buf.byteAt (k - b * blockSize) = (d.block b).byteAt (k - b * blockSize)) :
    (d.writeBlock b buf).byte k = d.byte k := by
  simp only [writeBlock]
  split_ifs with hk
  · rw [h hk, block, Vector.byteAt_ofFn _ (by simp only [blockSize] at hk ⊢; omega),
      Nat.add_sub_cancel' hk.1]
  · rfl

end Disk

variable {d : Disk} {sb : SuperBlock} {inode : Inode}

theorem RecordOnDisk.writeBlock {n : ℕ} (h : RecordOnDisk d sb n) (b : ℕ) (buf : Block) :
    RecordOnDisk (d.writeBlock b buf) sb n := ⟨h.1, h.2.trans (le_max_left _ _)⟩

private theorem recordUpdate_writeBlock (h : RecordOnDisk d sb inode.inodeNo.toNat) :
    RecordUpdate d (d.writeBlock (sb.inodeTableStart.toNat + inode.inodeNo.toNat / 6)
      ((d.block (sb.inodeTableStart.toNat + inode.inodeNo.toNat / 6)).copyAt
        (inode.inodeNo.toNat % 6 * 84) inodeSize inode.toBytes.byteAt)) sb inode where
  size := max_eq_left h.2
  self := by
    rw [(h.writeBlock _ _).readInode, Disk.block_writeBlock_self, Vector.slice_copyAt_self _ _ (by
      simp only [inodeSize, blockSize]; omega), inode.fromBytes_toBytes]
  other m hm hon := by
    rw [(hon.writeBlock _ _).readInode, hon.readInode]
    by_cases hb : m / 6 = inode.inodeNo.toNat / 6
    · rw [hb, Disk.block_writeBlock_self, Vector.slice_copyAt_of_disjoint _ _ (by
        simp only [inodeSize]; omega)]
    · rw [Disk.block_writeBlock_of_ne _ _ (by omega)]
  frame k hk := by
    apply Disk.byte_writeBlock_of_block
    intro hin
    rw [Vector.byteAt_copyAt, if_neg]
    simp only [recordOffset, blockSize, inodeSize] at hk hin ⊢
    omega

/-- Storing the record that was read changes at most its padding. -/
private theorem writeInode_readInode {n : ℕ} (h : RecordOnDisk d sb n) :
    ∃ inode d', readInode d sb n = some inode ∧ writeInode d sb inode = some d' ∧
      d'.size = d.size ∧
      ∀ k, k ≠ recordOffset sb n + 82 → k ≠ recordOffset sb n + 83 → d'.byte k = d.byte k := by
  have hn : n < 2 ^ 32 := by
    have := h.1
    simp only [maxBlocks, diskSize, blockSize] at this
    omega
  obtain ⟨inode, hinode⟩ : ∃ inode, Inode.fromBytes n
      ((d.block (sb.inodeTableStart.toNat + n / 6)).slice (n % 6 * 84) inodeSize) = inode :=
    ⟨_, rfl⟩
  have hno : inode.inodeNo.toNat = n := by
    rw [← hinode]
    exact UInt32.toNat_ofNat'.trans (Nat.mod_eq_of_lt hn)
  have hbytes : ∀ i < 82, inode.toBytes.byteAt i =
      (d.block (sb.inodeTableStart.toNat + n / 6)).byteAt (n % 6 * 84 + i) := by
    intro i hi
    rw [← hinode, Inode.toBytes_fromBytes n _ i hi,
      Vector.byteAt_slice _ _ (by simp only [inodeSize]; omega)]
  refine ⟨inode, _, h.readInode.trans (congrArg some hinode),
    RecordOnDisk.writeInode (by rw [hno]; exact h), ?_, ?_⟩
  · rw [hno]
    exact max_eq_left h.2
  · intro k h82 h83
    rw [hno]
    apply Disk.byte_writeBlock_of_block
    intro hin
    rw [Vector.byteAt_copyAt]
    split_ifs with hk
    · simp only [recordOffset, blockSize, inodeSize] at h82 h83 hin hk ⊢
      rw [hbytes _ (by omega)]
      congr 1
      omega
    · rfl

/-- The inode table is an array of records: one is stored and found again, the others and all
bytes outside stay, and storing what was read is no change. -/
theorem inodeTable_array (h : RecordOnDisk d sb inode.inodeNo.toNat) :
    (∃ d', writeInode d sb inode = some d' ∧ RecordUpdate d d' sb inode) ∧
    ∃ found d', readInode d sb inode.inodeNo.toNat = some found ∧
      writeInode d sb found = some d' ∧ d'.size = d.size ∧
      ∀ k, k ≠ recordOffset sb inode.inodeNo.toNat + 82 →
        k ≠ recordOffset sb inode.inodeNo.toNat + 83 → d'.byte k = d.byte k :=
  ⟨⟨_, h.writeInode, recordUpdate_writeBlock h⟩, writeInode_readInode h⟩

theorem inodeTable_array_newFile :
    ∃ d', writeInode ((Disk.ofImage []).truncate diskSize) .initial (.newFile 1000 (-1)) = some d' ∧
      RecordUpdate ((Disk.ofImage []).truncate diskSize) d' .initial (.newFile 1000 (-1)) :=
  (inodeTable_array ⟨by decide, by decide⟩).1

end SimpleFS
