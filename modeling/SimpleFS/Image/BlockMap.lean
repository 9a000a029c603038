import SimpleFS.Image.Pointers

/-! Storing a block number in the block map of an inode and reading it back. `set_block` takes one
index more than `get_block`: the entry in the last two bytes of the indirect block. -/
namespace SimpleFS

namespace Inode

variable {d : Disk} {i : Inode} {index b : ℕ}

/-- What is promised of a call of `set_block` that returns. -/
def MapAgrees (d : Disk) (i : Inode) (index b : ℕ) : Prop :=
  ∀ i' d', i.setBlock d index b = some (i', d') →
    i'.getBlock d' index = some (some b) ∧ ∀ j, j ≠ index → i'.getBlock d' j = i.getBlock d j

/-- The block map is a total function, changed at one index. -/
private theorem mapAgrees_of_ptr {i' : Inode} {d' : Disk}
    (hset : i.setBlock d index b = some (i', d'))
    (hread : i.indirectBlock ≠ 0 →
      d.readBlock i.indirectBlock.toNat = some (d.block i.indirectBlock.toNat))
    (hread' : i'.indirectBlock ≠ 0 →
      d'.readBlock i'.indirectBlock.toNat = some (d'.block i'.indirectBlock.toNat))
    (hb : 0 < b) (hptr : ∀ k, i'.ptr d' k = if k = index then b else i.ptr d k) :
    MapAgrees d i index b := by
  intro j d₁ h
  rw [hset, Option.some.injEq, Prod.mk.injEq] at h
  obtain ⟨rfl, rfl⟩ := h
  constructor
  · rw [getBlock_eq_of_readBlock hread', hptr, if_pos rfl, pointer_eq_some.mpr ⟨rfl, by omega⟩]
  · intro k hk
    rw [getBlock_eq_of_readBlock hread', getBlock_eq_of_readBlock hread, hptr, if_neg hk]

private theorem mapAgrees_direct (hread : i.indirectBlock ≠ 0 →
      d.readBlock i.indirectBlock.toNat = some (d.block i.indirectBlock.toNat))
    (hpos : 0 < b) (hb : b < 2 ^ 32) (h : index < 10) : MapAgrees d i index b := by
  obtain ⟨i', hi'⟩ : ∃ i', { i with
      directBlocks := i.directBlocks.setIfInBounds index (.ofNat b) } = i' := ⟨_, rfl⟩
  have hset : i.setBlock d index b = some (i', d) := by rw [setBlock, if_pos h, hi']
  have hind : i'.indirectBlock = i.indirectBlock := by rw [← hi']
  refine mapAgrees_of_ptr hset hread (by rw [hind]; exact hread) hpos ?_
  intro k
  by_cases hk : k < 10
  · exact ptr_set_direct h hb hk (by rw [← hi'])
  · rw [if_neg (by omega), ptr, ptr, if_neg hk, if_neg hk, hind]

theorem setBlock_indirect (hread : d.readBlock i.indirectBlock.toNat =
      some (d.block i.indirectBlock.toNat)) (h : 10 ≤ index) (hle : index ≤ 265) :
    i.setBlock d index b = some (i, d.writeBlock i.indirectBlock.toNat
      ((d.block i.indirectBlock.toNat).copyAt ((index - 10) * 2) 2
        (Vector.leByte (b % 2 ^ 16)))) := by
  rw [setBlock, if_neg (by simp only [directBlockCount]; omega), hread]
  simp only [directBlockCount, blockSize, Option.bind_eq_bind, Option.bind_some]
  rw [if_neg (by omega)]

theorem setBlock_of_gt (h : 265 < index) : i.setBlock d index b = none := by
  rw [setBlock, if_neg (by simp only [directBlockCount]; omega)]
  cases d.readBlock i.indirectBlock.toNat with
  | none => rfl
  | some buf =>
    simp only [directBlockCount, blockSize, Option.bind_eq_bind, Option.bind_some]
    rw [if_pos (by omega)]

private theorem readBlock_writeBlock_self (d : Disk) (c : ℕ) (buf : Block) :
    (d.writeBlock c buf).readBlock c = some ((d.writeBlock c buf).block c) :=
  Disk.readBlock_of_le (le_max_right _ _)

private theorem mapAgrees_indirect (hi : i.indirectBlock ≠ 0)
    (hread : d.readBlock i.indirectBlock.toNat = some (d.block i.indirectBlock.toNat))
    (hpos : 0 < b) (hb : b < 2 ^ 16) (h : 10 ≤ index) (hlt : index < 265) :
    MapAgrees d i index b := by
  refine mapAgrees_of_ptr (setBlock_indirect hread h hlt.le) (fun _ => hread)
    (fun _ => readBlock_writeBlock_self _ _ _) hpos ?_
  intro k
  unfold ptr
  rw [Disk.block_writeBlock_self]
  by_cases hk : k < 10
  · rw [if_pos hk, if_pos hk, if_neg (by omega)]
  rw [if_neg hk, if_neg hk]
  by_cases heq : k = index
  · subst heq
    rw [if_pos ⟨hi, hlt⟩, if_pos rfl, Vector.readLE_copyAt_self _ _ (by
      simp only [blockSize]; omega), Nat.mod_eq_of_lt hb]
    exact Nat.mod_eq_of_lt hb
  · rw [if_neg heq, Vector.readLE_copyAt_of_disjoint _ _ (by omega)]

/-- The entry behind the last data byte of the indirect block is stored and never found. -/
theorem not_mapAgrees_last
    (hread : d.readBlock i.indirectBlock.toNat = some (d.block i.indirectBlock.toNat)) :
    ¬MapAgrees d i 265 b := by
  intro h
  obtain ⟨hget, -⟩ := h _ _ (setBlock_indirect hread (by decide) le_rfl)
  rw [getBlock_eq_of_readBlock fun _ => readBlock_writeBlock_self _ _ _, ptr, if_neg (by decide),
    if_neg fun hc => absurd hc.2 (by decide)] at hget
  cases hget

/-- `get_block` finds what `set_block` stored, and the rest of the map as before, except at the
index that only `set_block` accepts. -/
theorem mapAgrees_iff (hi : i.indirectBlock ≠ 0)
    (ha : (i.indirectBlock.toNat + 1) * blockSize ≤ d.size) (hpos : 0 < b) (hb : b < maxBlocks) :
    MapAgrees d i index b ↔ index ≠ 265 := by
  have hread := Disk.readBlock_of_le ha
  have hb : b < 20480 := hb
  constructor
  · rintro h rfl
    exact not_mapAgrees_last hread h
  · intro h
    rcases lt_or_ge index 10 with hdirect | hge
    · exact mapAgrees_direct (fun _ => hread) hpos (by omega) hdirect
    rcases lt_or_gt_of_ne h with hlt | hgt
    · exact mapAgrees_indirect hi hread hpos (by omega) hge hlt
    · intro i' d' hset
      rw [setBlock_of_gt hgt] at hset
      cases hset

/-- A file with an indirect block. -/
def indirectFile : Inode := { newFile 1000 0 with indirectBlock := 40 }

theorem mapAgrees_first_indirect :
    MapAgrees ((Disk.ofImage []).truncate diskSize) indirectFile 10 41 :=
  (mapAgrees_iff (by decide) (by decide) (by decide) (by decide)).mpr (by decide)

theorem not_mapAgrees_indirectFile :
    indirectFile.indirectBlock ≠ 0 ∧
      (indirectFile.indirectBlock.toNat + 1) * blockSize ≤
        ((Disk.ofImage []).truncate diskSize).size ∧
      ¬MapAgrees ((Disk.ofImage []).truncate diskSize) indirectFile 265 41 :=
  ⟨by decide, by decide, not_mapAgrees_last (Disk.readBlock_of_le (by decide))⟩

end Inode

end SimpleFS
