import SimpleFS.Image.Records
import Mathlib.Data.List.Nodup

/-! The block map of an inode as a total function of the disk, and the list of all the blocks
that an inode refers to. -/
namespace SimpleFS

namespace Inode

/-- The number stored for data block `k`, zero where there is none. -/
def ptr (d : Disk) (i : Inode) (k : ℕ) : ℕ :=
  if k < 10 then (i.direct k).toNat
  else if i.indirectBlock ≠ 0 ∧ k < 265 then
    (d.block i.indirectBlock.toNat).readLE ((k - 10) * 2) 2
  else 0

/-- The data blocks, in the order of their position in the file. -/
def blocks (d : Disk) (i : Inode) : List ℕ :=
  (List.range i.blockCount.toNat).filterMap fun k => pointer (i.ptr d k)

/-- All blocks that the inode refers to: the data blocks, then the indirect block. -/
def refs (d : Disk) (i : Inode) : List ℕ :=
  i.blocks d ++ if i.indirectBlock = 0 then [] else [i.indirectBlock.toNat]

theorem pointer_eq_some {b c : ℕ} : pointer b = some c ↔ b = c ∧ c ≠ 0 := by
  unfold pointer
  split_ifs with h
  · simp only [false_iff]
    rintro ⟨rfl, hc⟩
    exact hc h
  · simp only [Option.some.injEq]
    exact ⟨fun hc => ⟨hc, by omega⟩, fun hc => hc.1⟩

theorem toNat_indirectBlock_ne {i : Inode} (h : i.indirectBlock ≠ 0) :
    i.indirectBlock.toNat ≠ 0 := by
  intro hz
  exact h (UInt32.toNat_inj.mp hz)

theorem mem_blocks {d : Disk} {i : Inode} {b : ℕ} :
    b ∈ i.blocks d ↔ b ≠ 0 ∧ ∃ k < i.blockCount.toNat, i.ptr d k = b := by
  simp only [blocks, List.mem_filterMap, List.mem_range, pointer_eq_some]
  constructor
  · rintro ⟨k, hk, hp, hb⟩
    exact ⟨hb, k, hk, hp⟩
  · rintro ⟨hb, k, hk, hp⟩
    exact ⟨k, hk, hp, hb⟩

theorem mem_blocks_of_ptr {d : Disk} {i : Inode} {k : ℕ} (hk : k < i.blockCount.toNat)
    (h : i.ptr d k ≠ 0) : i.ptr d k ∈ i.blocks d :=
  mem_blocks.mpr ⟨h, k, hk, rfl⟩

theorem mem_refs {d : Disk} {i : Inode} {b : ℕ} :
    b ∈ i.refs d ↔ b ∈ i.blocks d ∨ (i.indirectBlock ≠ 0 ∧ b = i.indirectBlock.toNat) := by
  unfold refs
  split_ifs with h <;> simp [h]

theorem mem_refs_of_mem_blocks {d : Disk} {i : Inode} {b : ℕ} (h : b ∈ i.blocks d) :
    b ∈ i.refs d :=
  mem_refs.mpr (Or.inl h)

theorem indirectBlock_mem_refs {d : Disk} {i : Inode} (h : i.indirectBlock ≠ 0) :
    i.indirectBlock.toNat ∈ i.refs d :=
  mem_refs.mpr (Or.inr ⟨h, rfl⟩)

/-- `get_block` returns what the map says when the indirect block can be read. -/
theorem getBlock_eq_of_readBlock {d : Disk} {i : Inode}
    (h : i.indirectBlock ≠ 0 →
      d.readBlock i.indirectBlock.toNat = some (d.block i.indirectBlock.toNat)) (k : ℕ) :
    i.getBlock d k = some (pointer (i.ptr d k)) := by
  rw [getBlock, ptr]
  by_cases hk : k < 10
  · rw [if_pos hk, if_pos hk]
  rw [if_neg hk, if_neg hk]
  by_cases hi : i.indirectBlock = 0
  · rw [if_neg (not_not.mpr hi), if_neg (fun hc => hc.1 hi)]
    rfl
  rw [if_pos hi, h hi]
  simp only [directBlockCount, pageSize, blockSize, Option.bind_eq_bind, Option.bind_some]
  by_cases hlt : k < 265
  · rw [if_neg (by omega), if_pos ⟨hi, hlt⟩]
  · rw [if_pos (by omega), if_neg (fun hc => hlt hc.2)]
    rfl

theorem getBlock_eq {d : Disk} (hd : d.Sized) {i : Inode}
    (h : i.indirectBlock ≠ 0 → i.indirectBlock.toNat < 20480) (k : ℕ) :
    i.getBlock d k = some (pointer (i.ptr d k)) :=
  getBlock_eq_of_readBlock (fun hi => hd.readBlock (h hi)) k

/-- The map depends on the inode and on its indirect block only. -/
theorem ptr_congr {d d' : Disk} {i : Inode}
    (h : i.indirectBlock ≠ 0 → d'.block i.indirectBlock.toNat = d.block i.indirectBlock.toNat)
    (k : ℕ) : i.ptr d' k = i.ptr d k := by
  unfold ptr
  split_ifs with hk hi
  · rfl
  · rw [h hi.1]
  · rfl

theorem blocks_congr {d d' : Disk} {i : Inode}
    (h : i.indirectBlock ≠ 0 → d'.block i.indirectBlock.toNat = d.block i.indirectBlock.toNat) :
    i.blocks d' = i.blocks d := by
  simp only [blocks, ptr_congr h]

theorem refs_congr {d d' : Disk} {i : Inode}
    (h : i.indirectBlock ≠ 0 → d'.block i.indirectBlock.toNat = d.block i.indirectBlock.toNat) :
    i.refs d' = i.refs d := by
  rw [refs, refs, blocks_congr h]

theorem blocks_of_blockCount_eq_zero {d : Disk} {i : Inode} (h : i.blockCount = 0) :
    i.blocks d = [] := by
  simp [blocks, h]

/-- Data blocks `0, 1, …, block_count - 1` are all there. -/
def Mapped (d : Disk) (i : Inode) : Prop := ∀ k < i.blockCount.toNat, i.ptr d k ≠ 0

theorem Mapped.blocks_eq {d : Disk} {i : Inode} (h : i.Mapped d) :
    i.blocks d = (List.range i.blockCount.toNat).map (i.ptr d) := by
  unfold blocks
  rw [← List.filterMap_eq_map]
  apply List.filterMap_congr
  intro k hk
  exact pointer_eq_some.mpr ⟨rfl, h k (List.mem_range.mp hk)⟩

theorem mapped_iff_length_blocks {d : Disk} {i : Inode} :
    i.Mapped d ↔ (i.blocks d).length = i.blockCount.toNat := by
  constructor
  · intro h
    rw [h.blocks_eq, List.length_map, List.length_range]
  · intro h k hk hp
    have hle : (i.blocks d).length < (List.range i.blockCount.toNat).length := by
      refine List.length_filterMap_lt_length_iff_exists.mpr ⟨k, List.mem_range.mpr hk, ?_⟩
      rw [hp]
      rfl
    rw [List.length_range] at hle
    omega

theorem direct_set {i : Inode} {n : ℕ} (hn : n < 10) (b k : ℕ) :
    direct { i with directBlocks := i.directBlocks.setIfInBounds n (.ofNat b) } k =
      if k = n then .ofNat b else i.direct k := by
  unfold direct
  simp only [Vector.getElem?_setIfInBounds, directBlockCount]
  split_ifs with h h' h' <;> first | rfl | omega

theorem ptr_set_direct {d d' : Disk} {i j : Inode} {n b k : ℕ} (hn : n < 10) (hb : b < 2 ^ 32)
    (hk : k < 10) (hj : j.directBlocks = i.directBlocks.setIfInBounds n (.ofNat b)) :
    j.ptr d' k = if k = n then b else i.ptr d k := by
  have hdirect : j.direct k = if k = n then .ofNat b else i.direct k := by
    rw [← direct_set hn, direct, hj]
    rfl
  rw [ptr, ptr, if_pos hk, if_pos hk, hdirect]
  split_ifs with h
  · rw [UInt32.toNat_ofNat', Nat.mod_eq_of_lt hb]
  · rfl

/-- The data blocks of an inode that has been given one more. -/
theorem blocks_succ {d d' : Disk} {i j : Inode}
    (hcount : j.blockCount.toNat = i.blockCount.toNat + 1)
    (hptr : ∀ k < i.blockCount.toNat, j.ptr d' k = i.ptr d k) :
    j.blocks d' = i.blocks d ++ (pointer (j.ptr d' i.blockCount.toNat)).toList := by
  rw [blocks, blocks, hcount, List.range_succ, List.filterMap_append]
  refine congrArg₂ (· ++ ·) (List.filterMap_congr fun k hk => ?_) ?_
  · rw [hptr k (List.mem_range.mp hk)]
  · rw [List.filterMap_cons]
    cases pointer (j.ptr d' i.blockCount.toNat) <;> rfl

/-- Two positions of a file whose blocks are all different hold different blocks. -/
theorem Mapped.ptr_inj {d : Disk} {i : Inode} (h : i.Mapped d) (hn : (i.blocks d).Nodup)
    {j k : ℕ} (hj : j < i.blockCount.toNat) (hk : k < i.blockCount.toNat)
    (he : i.ptr d j = i.ptr d k) : j = k := by
  rw [h.blocks_eq] at hn
  exact List.inj_on_of_nodup_map hn (List.mem_range.mpr hj) (List.mem_range.mpr hk) he

end Inode

end SimpleFS
