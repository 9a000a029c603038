import Mathlib.Data.Finset.Card
import Mathlib.Order.Bounds.Defs
import Mathlib.Order.Interval.Finset.Nat
import SimpleFS.Bitmap

/-! The allocator on a fresh disk, seen as a set of held blocks: the bitmap and the free count
never say more than the set does. -/
namespace SimpleFS
namespace Bitmap

/-- The states that calls of `allocate_block` and `mark_free` lead to from a fresh bitmap, with the
set of blocks held. Blocks behind the bitmap may be written by others. -/
inductive Serves (start : Disk) : Finset ℕ → Disk → SuperBlock → Prop
  | fresh : Serves start ∅ (initBitmap (initSuperblock start).1 (initSuperblock start).2)
      (initSuperblock start).2
  | allocated {held d sb b d' sb'} : Serves start held d sb →
      allocateBlock d sb = some (some b, d', sb') → Serves start (insert b held) d' sb'
  | refused {held d sb d' sb'} : Serves start held d sb →
      allocateBlock d sb = some (none, d', sb') → Serves start held d' sb'
  | freed {held d sb b d' sb'} : Serves start held d sb → b ∈ held →
      markFree d sb b = some (d', sb') → Serves start (held.erase b) d' sb'
  | written {held d sb b} (buf : Block) : Serves start held d sb → 6 ≤ b → b < 20480 →
      Serves start held (d.writeBlock b buf) sb

/-- The blocks that can be handed out. -/
def Spare (held : Finset ℕ) (b : ℕ) : Prop := 31 ≤ b ∧ b < 20480 ∧ b ∉ held

/-- The disk and the superblock stand for the held set. -/
structure Holds (held : Finset ℕ) (d : Disk) (sb : SuperBlock) : Prop where
  sized : d.Sized
  range : held ⊆ Finset.Ico 31 20480
  bit : ∀ b < 20480, d.bit b = decide (b < 31 ∨ b ∈ held)
  count : sb.freeBlocks.toNat + held.card = 20480 - 31
  synced : SuperBlock.fromBytes (d.block 0) = sb
  valid : sb.isValid = true
  bitmapBlocks : sb.bitmapBlocks = 5

/-- `is_allocated` reads one bit. -/
theorem isAllocated_eq {d : Disk} (hd : d.Sized) (sb : SuperBlock) (b : ℕ) :
    isAllocated d sb b = some (decide (20480 ≤ b) || d.bit b) := by
  unfold isAllocated
  simp only [maxBlocks, diskSize, blockSize]
  by_cases hb : 20480 ≤ b
  · rw [if_pos (by omega), decide_eq_true hb, Bool.true_or]
  · have hblk : 1 + b / 8 / 512 < 20480 := by omega
    rw [if_neg (by omega), decide_eq_false hb, Bool.false_or, locate, hd.readBlock hblk,
      Option.bind_eq_bind, Option.bind_some, Disk.bit]
    have hzero := UInt8.and_bitMask_eq_zero ((d.block (1 + b / 8 / 512)).byteAt (b / 8 % 512))
      (Nat.mod_lt b (show 0 < 8 by decide))
    refine congrArg some ?_
    cases hbit : ((d.block (1 + b / 8 / 512)).byteAt (b / 8 % 512)).bit (b % 8) with
    | false => simp [hzero.mpr hbit]
    | true => simp [mt hzero.mp (by simp [hbit])]

namespace Holds

variable {held : Finset ℕ} {d d' : Disk} {sb sb' : SuperBlock}

theorem fresh {start : Disk} (hs : start.Sized) :
    Holds ∅ (initBitmap (initSuperblock start).1 (initSuperblock start).2)
      (initSuperblock start).2 := by
  rw [initSuperblock_eq]
  dsimp only
  obtain ⟨hsized, hbit, hblock⟩ := @initBitmap_spec _
    (hs.writeBlock (show 0 < 20480 by decide) SuperBlock.initial.toBlock) .initial (by decide)
    (by decide)
  refine ⟨hsized, by simp, fun b hb => ?_, by decide, ?_, by decide, by decide⟩
  · rw [hbit b hb]
    simp
  · rw [hblock 0 (Or.inl rfl), Disk.block_writeBlock_self, SuperBlock.fromBytes_toBlock]

theorem bit_eq_false (h : Holds held d sb) {b : ℕ} : b < 20480 ∧ d.bit b = false ↔ Spare held b := by
  constructor
  · rintro ⟨hb, hbit⟩
    rw [h.bit b hb, decide_eq_false_iff_not, not_or] at hbit
    exact ⟨by omega, hb, hbit.2⟩
  · rintro ⟨hlow, hb, hnot⟩
    refine ⟨hb, ?_⟩
    rw [h.bit b hb, decide_eq_false_iff_not, not_or]
    exact ⟨by omega, hnot⟩

/-- The lowest clear bit is the least block to spare. -/
theorem leastFree_iff (h : Holds held d sb) {b : ℕ} : LeastFree d b ↔ IsLeast {b | Spare held b} b := by
  constructor
  · intro hb
    refine ⟨h.bit_eq_false.mp ⟨hb.lt, hb.free⟩, fun c hc => ?_⟩
    by_contra hlt
    have hbit := (h.bit_eq_false.mpr hc).2
    rw [hb.least c (by omega)] at hbit
    cases hbit
  · rintro ⟨hb, hleast⟩
    obtain ⟨hlt, hfree⟩ := h.bit_eq_false.mpr hb
    refine ⟨hlt, hfree, fun c hc => ?_⟩
    by_contra hbit
    have hle : b ≤ c := hleast (h.bit_eq_false.mp ⟨hc.trans hlt, by simpa using hbit⟩)
    exact absurd hle (Nat.not_le.mpr hc)

theorem allocated (h : Holds held d sb) {b : ℕ}
    (ha : allocateBlock d sb = some (some b, d', sb')) :
    IsLeast {b | Spare held b} b ∧ Holds (insert b held) d' sb' := by
  rcases allocateBlock_cases h.sized ha with ⟨hr, -⟩ | ⟨c, hr, hcount, hleast, rfl, hu⟩
  · cases hr
  obtain rfl := Option.some.inj hr
  obtain ⟨hlow, hlt, hnot⟩ := h.bit_eq_false.mp ⟨hleast.lt, hleast.free⟩
  have hpos : 1 ≤ sb.freeBlocks.toNat := by
    by_contra h0
    exact hcount (UInt32.toNat_inj.mp (by rw [UInt32.toNat_zero]; omega))
  have hsub : (sb.freeBlocks - 1).toNat = sb.freeBlocks.toNat - 1 :=
    UInt32.toNat_sub_of_le _ _ (UInt32.le_iff_toNat_le.mpr hpos)
  refine ⟨h.leastFree_iff.mp hleast, hu.sized, ?_, fun c hc => ?_, ?_, hu.super, h.valid,
    h.bitmapBlocks⟩
  · intro c hc
    rcases Finset.mem_insert.mp hc with rfl | hc
    · exact Finset.mem_Ico.mpr ⟨hlow, hlt⟩
    · exact h.range hc
  · rw [hu.bit c hc]
    split_ifs with hcb
    · simp [hcb]
    · rw [h.bit c hc]
      simp [hcb]
  · have hcard := h.count
    rw [Finset.card_insert_of_notMem hnot]
    dsimp only
    omega

theorem refused (h : Holds held d sb) (ha : allocateBlock d sb = some (none, d', sb')) :
    Holds held d' sb' := by
  rcases allocateBlock_cases h.sized ha with ⟨-, rfl, rfl⟩ | ⟨c, hr, -⟩
  · exact h
  · cases hr

theorem freed (h : Holds held d sb) {b : ℕ} (hb : b ∈ held)
    (hf : markFree d sb b = some (d', sb')) : Holds (held.erase b) d' sb' := by
  obtain ⟨hlow, hlt⟩ := Finset.mem_Ico.mp (h.range hb)
  obtain ⟨d₁, hfree, hu⟩ := markFree_spec h.sized sb hlt
  rw [hfree] at hf
  simp only [Option.some.injEq, Prod.mk.injEq] at hf
  obtain ⟨rfl, rfl⟩ := hf
  have hpos := Finset.card_pos.mpr ⟨b, hb⟩
  have hcard := h.count
  have hadd : (sb.freeBlocks + 1).toNat = sb.freeBlocks.toNat + 1 := by
    rw [UInt32.toNat_add]
    exact Nat.mod_eq_of_lt (by show sb.freeBlocks.toNat + 1 < 2 ^ 32; omega)
  refine ⟨hu.sized, fun c hc => h.range (Finset.mem_of_mem_erase hc), fun c hc => ?_, ?_, hu.super,
    h.valid, h.bitmapBlocks⟩
  · rw [hu.bit c hc]
    split_ifs with hcb
    · rw [hcb, eq_comm, decide_eq_false_iff_not]
      simpa using hlow
    · rw [h.bit c hc]
      simp [hcb]
  · rw [Finset.card_erase_of_mem hb]
    dsimp only
    omega

theorem written (h : Holds held d sb) {b : ℕ} (buf : Block) (hlow : 6 ≤ b) (hb : b < 20480) :
    Holds held (d.writeBlock b buf) sb where
  sized := h.sized.writeBlock hb _
  range := h.range
  bit c hc := (bit_writeBlock_of_le d buf (Or.inl hlow) hc).trans (h.bit c hc)
  count := h.count
  synced := by
    rw [Disk.block_writeBlock_of_ne _ _ (by omega)]
    exact h.synced
  valid := h.valid
  bitmapBlocks := h.bitmapBlocks

/-- No block is to spare once the count is zero. -/
theorem not_spare_of_count (h : Holds held d sb) (hzero : sb.freeBlocks = 0) (b : ℕ) :
    ¬ Spare held b := by
  rintro ⟨hlow, hlt, hnot⟩
  have hcard := h.count
  rw [hzero, UInt32.toNat_zero, Nat.zero_add] at hcard
  have hall : held = Finset.Ico 31 20480 :=
    Finset.eq_of_subset_of_card_le h.range (by rw [Nat.card_Ico, hcard])
  exact hnot (hall ▸ Finset.mem_Ico.mpr ⟨hlow, hlt⟩)

/-- `allocate_block` answers with the least block to spare. -/
theorem allocate (h : Holds held d sb) : ∃ r d' sb', allocateBlock d sb = some (r, d', sb') ∧
    (∀ b, r = some b ↔ IsLeast {b | Spare held b} b) ∧ (r = none ↔ ∀ b, ¬ Spare held b) := by
  obtain ⟨r, d', sb', ha, hnone⟩ := @allocateBlock_returns d sb h.sized
    (by rw [h.synced]; exact h.valid) (by rw [h.synced]; exact h.bitmapBlocks)
  refine ⟨r, d', sb', ha, ?_⟩
  cases r with
  | none =>
    have hspare : ∀ b, ¬ Spare held b := by
      rcases hnone rfl with hzero | hfull
      · exact h.not_spare_of_count hzero
      · intro b hb
        have hbit := (h.bit_eq_false.mpr hb).2
        rw [hfull b hb.2.1] at hbit
        cases hbit
    exact ⟨fun b => ⟨fun hb => (Option.some_ne_none b hb.symm).elim, fun hb => absurd hb.1 (hspare b)⟩,
      ⟨fun _ => hspare, fun _ => rfl⟩⟩
  | some b =>
    obtain ⟨hleast, -⟩ := h.allocated ha
    refine ⟨fun c => ⟨fun hc => Option.some.inj hc ▸ hleast, fun hc => ?_⟩,
      ⟨fun hb => (Option.some_ne_none b hb).elim, fun hall => absurd hleast.1 (hall b)⟩⟩
    exact congrArg some (hleast.unique hc)

end Holds

theorem Serves.holds {start : Disk} (hs : start.Sized) {held : Finset ℕ} {d : Disk}
    {sb : SuperBlock} (h : Serves start held d sb) : Holds held d sb := by
  induction h with
  | fresh => exact .fresh hs
  | allocated _ ha ih => exact (ih.allocated ha).2
  | refused _ ha ih => exact ih.refused ha
  | freed _ hb hf ih => exact ih.freed hb hf
  | written buf _ hlow hb ih => exact ih.written buf hlow hb

/-- After any calls the allocator hands out the least block to spare, reports as taken exactly the
low blocks, the held ones and those past the end, and counts the rest. -/
theorem allocator_refines {start : Disk} (hs : start.Sized) {held : Finset ℕ} {d : Disk}
    {sb : SuperBlock} (h : Serves start held d sb) :
    (∃ r d' sb', allocateBlock d sb = some (r, d', sb') ∧
      (∀ b, r = some b ↔ IsLeast {b | Spare held b} b) ∧ (r = none ↔ ∀ b, ¬ Spare held b)) ∧
    (∀ b ∈ held, ∃ d' sb', markFree d sb b = some (d', sb')) ∧
    (∀ b, isAllocated d sb b = some (decide (b < 31 ∨ b ∈ held ∨ 20480 ≤ b))) ∧
    held ⊆ Finset.Ico 31 20480 ∧ sb.freeBlocks.toNat = 20480 - 31 - held.card ∧
    held.card ≤ 20480 - 31 ∧ readSuperblock d = some sb := by
  have hh := h.holds hs
  have hcount := hh.count
  refine ⟨hh.allocate, fun b hb => ?_, fun b => ?_, hh.range, by omega, by omega, ?_⟩
  · obtain ⟨d', hfree, -⟩ := markFree_spec hh.sized sb (Finset.mem_Ico.mp (hh.range hb)).2
    exact ⟨d', _, hfree⟩
  · rw [isAllocated_eq hh.sized]
    refine congrArg some ?_
    rcases Nat.lt_or_ge b 20480 with hb | hb
    · rw [hh.bit b hb, decide_eq_false (by omega), Bool.false_or]
      exact decide_eq_decide.mpr ⟨fun h => h.imp_right Or.inl, fun h => by
        rcases h with h | h | h
        · exact Or.inl h
        · exact Or.inr h
        · omega⟩
    · rw [decide_eq_true hb, Bool.true_or, eq_comm, decide_eq_true_eq]
      exact Or.inr (Or.inr hb)
  · rw [readSuperblock, hh.sized.readBlock (by decide), Option.bind_eq_bind, Option.bind_some]
    dsimp only
    rw [hh.synced, if_pos hh.valid]

/-- On a fresh disk the first block handed out is the first one of the data area. -/
theorem allocator_refines_fresh : ∃ d' sb',
    allocateBlock (initBitmap (initSuperblock ((Disk.ofImage []).truncate diskSize)).1
      (initSuperblock ((Disk.ofImage []).truncate diskSize)).2)
      (initSuperblock ((Disk.ofImage []).truncate diskSize)).2 = some (some 31, d', sb') := by
  obtain ⟨⟨r, d', sb', ha, hsome, -⟩, -⟩ :=
    @allocator_refines ((Disk.ofImage []).truncate diskSize) rfl _ _ _ .fresh
  have hr : r = some 31 :=
    (hsome 31).mpr ⟨⟨le_refl _, by decide, by simp⟩, fun c hc => hc.1⟩
  exact ⟨d', sb', hr ▸ ha⟩

end Bitmap

end SimpleFS
