import SimpleFS.Foundation.Bits
import SimpleFS.Foundation.Scan
import SimpleFS.SuperBlock

/-! The block bitmap: one bit for each block, in the blocks after the superblock. -/
namespace SimpleFS
open Scan

namespace Bitmap

/-- `locate`: the byte of the bitmap and the mask that hold the bit of block `b`. -/
def locate (b : ℕ) : ℕ × UInt8 := (b / 8, UInt8.bitMask (b % 8))

/-- `is_allocated`: a block number out of range counts as taken. -/
def isAllocated (d : Disk) (_sb : SuperBlock) (b : ℕ) : Option Bool :=
  if b ≥ maxBlocks then some true
  else do
    let (byteIdx, mask) := locate b
    let buf ← d.readBlock (1 + byteIdx / blockSize)
    some (buf.byteAt (byteIdx % blockSize) &&& mask != 0)

/-- The common body of `mark_allocated` and `mark_free`: rewrite the bit of block `b` with `f`,
then write the superblock with the new free count. -/
def updateBit (d : Disk) (sb : SuperBlock) (b : ℕ) (f : UInt8 → UInt8 → UInt8)
    (freeBlocks : UInt32) : Option (Disk × SuperBlock) := do
  let (byteIdx, mask) := locate b
  let blockToWrite := 1 + byteIdx / blockSize
  let buf ← d.readBlock blockToWrite
  let d := d.writeBlock blockToWrite (buf.modifyByte (byteIdx % blockSize) fun x => f x mask)
  let sb := { sb with freeBlocks := freeBlocks }
  some (writeSuperblock d sb, sb)

/-- `mark_allocated`; the count wraps, as in a release build. -/
def markAllocated (d : Disk) (sb : SuperBlock) (b : ℕ) : Option (Disk × SuperBlock) :=
  updateBit d sb b (fun x mask => x ||| mask) (sb.freeBlocks - 1)

/-- `mark_free`. -/
def markFree (d : Disk) (sb : SuperBlock) (b : ℕ) : Option (Disk × SuperBlock) :=
  updateBit d sb b (fun x mask => x &&& ~~~mask) (sb.freeBlocks + 1)

/-- The innermost loop of `allocate_block`: the first clear bit of a byte. -/
def scanByte (byteVal : UInt8) : Option ℕ :=
  if byteVal = 0xFF then none
  else (List.range 8).find? fun bit => byteVal &&& UInt8.bitMask bit == 0

/-- The loop over the bytes of one bitmap block, giving the number of the first free block. -/
def scanBlock (bitmapIdx : ℕ) (buf : Block) : Option ℕ :=
  (List.range blockSize).findSome? fun byteOffset =>
    (scanByte (buf.byteAt byteOffset)).map fun bit =>
      ((bitmapIdx * blockSize + byteOffset) * 8 + bit) % 2 ^ 32

/-- `allocate_block`. The superblock is read again from the disk, for the number of bitmap
blocks only. -/
def allocateBlock (d : Disk) (sb : SuperBlock) : Option (Option ℕ × Disk × SuperBlock) :=
  if sb.freeBlocks = 0 then some (none, d, sb)
  else do
    let sbLocal ← readSuperblock d
    let found ← scanM (fun bitmapIdx => (d.readBlock (1 + bitmapIdx)).map (scanBlock bitmapIdx))
      (List.range sbLocal.bitmapBlocks.toNat)
    match found with
    | none => some (none, d, sb)
    | some freeBlock =>
      if freeBlock ≥ maxBlocks then some (none, d, sb)
      else do
        let (d, sb) ← markAllocated d sb freeBlock
        some (some freeBlock, d, sb)

/-- `init_bitmap`: everything before the data area is taken. -/
def initBitmap (d : Disk) (sb : SuperBlock) : Disk :=
  let bitmapBlocks := sb.bitmapBlocks.toNat
  let totalBytes := bitmapBlocks * blockSize
  let bitmap := (List.range sb.dataStart.toNat).foldl (fun (bitmap : Vector UInt8 totalBytes) b =>
    let (byteIdx, mask) := locate b
    if byteIdx < totalBytes then bitmap.modifyByte byteIdx fun x => x ||| mask else bitmap)
    (Vector.zeros totalBytes)
  (List.range bitmapBlocks).foldl (fun d i =>
    d.writeBlock (1 + i) (bitmap.slice (i * blockSize) blockSize)) d

end Bitmap

/-- The bit that the bitmap holds for block `b`: set when the block is taken. -/
def Disk.bit (d : Disk) (b : ℕ) : Bool :=
  ((d.block (1 + b / 8 / blockSize)).byteAt (b / 8 % blockSize)).bit (b % 8)

namespace Bitmap

/-- What setting or clearing the bit of block `b` does to the disk. -/
structure BitUpdate (d d' : Disk) (sb' : SuperBlock) (b : ℕ) (v : Bool) : Prop where
  sized : d'.Sized
  bit : ∀ c < 20480, d'.bit c = if c = b then v else d.bit c
  block : ∀ c, 6 ≤ c → d'.block c = d.block c
  super : SuperBlock.fromBytes (d'.block 0) = sb'

theorem bit_writeBlock_of_le (d : Disk) {b c : ℕ} (buf : Block) (hb : 6 ≤ b ∨ b = 0)
    (hc : c < 20480) : (d.writeBlock b buf).bit c = d.bit c := by
  rw [Disk.bit, Disk.bit, Disk.block_writeBlock_of_ne]
  simp only [blockSize]
  omega

theorem updateBit_spec {d : Disk} (hd : d.Sized) (sb : SuperBlock) {b : ℕ} (hb : b < 20480)
    (f : UInt8 → UInt8 → UInt8) (free : UInt32) (v : Bool)
    (hf : ∀ x : UInt8, ∀ k < 8, ∀ j < 8, (f x (UInt8.bitMask k)).bit j = if j = k then v else x.bit j) :
    ∃ d', updateBit d sb b f free = some (d', { sb with freeBlocks := free }) ∧
      BitUpdate d d' { sb with freeBlocks := free } b v := by
  have hblk : 1 + b / 8 / blockSize < 6 := by simp only [blockSize]; omega
  refine ⟨_, by simp only [updateBit, locate, hd.readBlock (show 1 + b / 8 / blockSize < 20480 by omega)]
                rfl, ?_, ?_, ?_, ?_⟩
  · exact (hd.writeBlock (by omega) _).writeBlock (by omega) _
  · intro c hc
    rw [writeSuperblock, bit_writeBlock_of_le _ _ (Or.inr rfl) hc, Disk.bit, Disk.block_writeBlock]
    simp only [blockSize] at hblk ⊢
    by_cases hsame : 1 + c / 8 / 512 = 1 + b / 8 / 512
    · rw [if_pos hsame, Vector.byteAt_modifyByte _ _ _ _ (Nat.mod_lt _ (by decide))]
      by_cases hbyte : c / 8 % 512 = b / 8 % 512
      · rw [if_pos hbyte, hf _ _ (Nat.mod_lt _ (by decide)) _ (Nat.mod_lt _ (by decide)),
          Disk.bit, hsame, hbyte]
        have hiff : c % 8 = b % 8 ↔ c = b := by omega
        simp only [hiff]
      · rw [if_neg hbyte, if_neg (by omega), Disk.bit, hsame]
    · rw [if_neg hsame, if_neg (by omega), Disk.bit]
  · intro c hc
    rw [writeSuperblock, Disk.block_writeBlock_of_ne _ _ (by omega),
      Disk.block_writeBlock_of_ne _ _ (by omega)]
  · rw [writeSuperblock, Disk.block_writeBlock_self, SuperBlock.fromBytes_toBlock]

theorem markAllocated_spec {d : Disk} (hd : d.Sized) (sb : SuperBlock) {b : ℕ} (hb : b < 20480) :
    ∃ d', markAllocated d sb b = some (d', { sb with freeBlocks := sb.freeBlocks - 1 }) ∧
      BitUpdate d d' { sb with freeBlocks := sb.freeBlocks - 1 } b true := by
  apply updateBit_spec hd sb hb
  intro x k hk j hj
  rw [UInt8.bit_or_bitMask x hk hj]
  split_ifs <;> simp_all

theorem markFree_spec {d : Disk} (hd : d.Sized) (sb : SuperBlock) {b : ℕ} (hb : b < 20480) :
    ∃ d', markFree d sb b = some (d', { sb with freeBlocks := sb.freeBlocks + 1 }) ∧
      BitUpdate d d' { sb with freeBlocks := sb.freeBlocks + 1 } b false := by
  apply updateBit_spec hd sb hb
  intro x k hk j hj
  rw [UInt8.bit_and_not_bitMask x hk hj]
  split_ifs <;> simp_all

theorem scanByte_eq_none {x : UInt8} (h : scanByte x = none) : ∀ k < 8, x.bit k = true := by
  unfold scanByte at h
  split_ifs at h with hfull
  · rw [hfull]
    exact UInt8.bit_full
  · intro k hk
    have hbit := List.find?_eq_none.mp h k (List.mem_range.mpr hk)
    simpa [UInt8.and_bitMask_eq_zero x hk] using hbit

theorem scanByte_eq_some {x : UInt8} {k : ℕ} (h : scanByte x = some k) :
    k < 8 ∧ x.bit k = false ∧ ∀ j < k, x.bit j = true := by
  unfold scanByte at h
  split_ifs at h
  obtain ⟨hclear, hk, hlow⟩ := List.find?_range_eq_some.mp h
  have hk : k < 8 := List.mem_range.mp hk
  refine ⟨hk, by simpa [UInt8.and_bitMask_eq_zero x hk] using hclear, fun j hj => ?_⟩
  simpa [UInt8.and_bitMask_eq_zero x (show j < 8 by omega)] using hlow j hj

theorem scanBlock_eq_none {i : ℕ} {buf : Block} (h : scanBlock i buf = none) :
    ∀ off < 512, ∀ k < 8, (buf.byteAt off).bit k = true := by
  intro off hoff
  have hb := List.findSome?_eq_none_iff.mp h off (List.mem_range.mpr hoff)
  exact scanByte_eq_none (Option.map_eq_none_iff.mp hb)

/-- A hit in bitmap block `i` is its lowest clear bit. -/
theorem scanBlock_eq_some {i a : ℕ} {buf : Block} (hi : i < 20480) (h : scanBlock i buf = some a) :
    a / 8 / 512 = i ∧ (buf.byteAt (a / 8 % 512)).bit (a % 8) = false ∧
      ∀ c < a, c / 8 / 512 = i → (buf.byteAt (c / 8 % 512)).bit (c % 8) = true := by
  obtain ⟨off, hoff, hfound, hbefore⟩ := findSome?_range_eq_some h
  obtain ⟨k, hk, ha⟩ := Option.map_eq_some_iff.mp hfound
  obtain ⟨hk8, hclear, hlow⟩ := scanByte_eq_some hk
  simp only [blockSize] at hoff ha
  have hval : a = (i * 512 + off) * 8 + k := by omega
  have hbyte : a / 8 % 512 = off := by omega
  have hbit : a % 8 = k := by omega
  refine ⟨by omega, by rw [hbyte, hbit]; exact hclear, fun c hc hci => ?_⟩
  rcases Nat.lt_or_ge (c / 8 % 512) off with ho | ho
  · have hnone := Option.map_eq_none_iff.mp (hbefore _ ho)
    exact scanByte_eq_none hnone _ (Nat.mod_lt _ (by decide))
  · have ho : c / 8 % 512 = off := by omega
    rw [ho]
    exact hlow _ (by omega)

end Bitmap

/-- Block `b` is the lowest free one. -/
structure LeastFree (d : Disk) (b : ℕ) : Prop where
  lt : b < 20480
  free : d.bit b = false
  least : ∀ c < b, d.bit c = true

namespace Bitmap

/-- Everything that a call of `allocate_block` that returns can do. -/
theorem allocateBlock_cases {d d' : Disk} {sb sb' : SuperBlock} {r : Option ℕ} (hd : d.Sized)
    (h : allocateBlock d sb = some (r, d', sb')) :
    (r = none ∧ d' = d ∧ sb' = sb) ∨
      ∃ b, r = some b ∧ sb.freeBlocks ≠ 0 ∧ LeastFree d b ∧
        sb' = { sb with freeBlocks := sb.freeBlocks - 1 } ∧ BitUpdate d d' sb' b true := by
  unfold allocateBlock at h
  split_ifs at h with hfree
  · left
    simp_all
  obtain ⟨sbLocal, -, h⟩ := Option.bind_eq_some_iff.mp h
  obtain ⟨found, hscan, h⟩ := Option.bind_eq_some_iff.mp h
  rw [List.range_eq_range'] at hscan
  rcases scanM_range'_eq_some hscan with ⟨rfl, -⟩ | ⟨a, i, rfl, -, -, hfi, hbefore⟩
  · left
    simp_all
  dsimp only at h
  split_ifs at h with hmax
  · left
    simp_all
  right
  obtain ⟨buf, hbuf, hfound⟩ := Option.map_eq_some_iff.mp hfi
  obtain ⟨hi, rfl⟩ := hd.readBlock_eq_some hbuf
  obtain ⟨ha, hclear, hlow⟩ := scanBlock_eq_some (by omega) hfound
  have hlt : a < 20480 := by
    simp only [maxBlocks, diskSize, blockSize] at hmax
    omega
  obtain ⟨d₁, hmark, hupd⟩ := markAllocated_spec hd sb hlt
  simp only [hmark, Option.bind_eq_bind, Option.bind_some, Option.some.injEq, Prod.mk.injEq] at h
  obtain ⟨rfl, rfl, rfl⟩ := h
  refine ⟨a, rfl, hfree, ⟨hlt, by rw [Disk.bit, ha]; exact hclear, fun c hc => ?_⟩, rfl, hupd⟩
  rw [Disk.bit]
  rcases Nat.lt_or_ge (c / 8 / 512) i with hci | hci
  · obtain ⟨bufc, hbufc, hnone⟩ := Option.map_eq_some_iff.mp (hbefore _ (Nat.zero_le _) hci)
    obtain ⟨-, rfl⟩ := hd.readBlock_eq_some hbufc
    exact scanBlock_eq_none hnone _ (Nat.mod_lt _ (by decide)) _ (Nat.mod_lt _ (by decide))
  · have hci : c / 8 / 512 = i := by omega
    rw [hci]
    exact hlow c hc hci

/-- With the superblock on the disk in order, `allocate_block` returns, and refuses only when
the count is zero or every bit is set. -/
theorem allocateBlock_returns {d : Disk} {sb : SuperBlock} (hd : d.Sized)
    (hvalid : (SuperBlock.fromBytes (d.block 0)).isValid = true)
    (hblocks : (SuperBlock.fromBytes (d.block 0)).bitmapBlocks = 5) :
    ∃ r d' sb', allocateBlock d sb = some (r, d', sb') ∧
      (r = none → sb.freeBlocks = 0 ∨ ∀ b < 20480, d.bit b = true) := by
  by_cases hfree : sb.freeBlocks = 0
  · exact ⟨none, d, sb, by simp [allocateBlock, hfree], fun _ => Or.inl hfree⟩
  have hread : readSuperblock d = some (SuperBlock.fromBytes (d.block 0)) := by
    simp [readSuperblock, hd.readBlock (show 0 < 20480 by decide), hvalid]
  have hscan : scanM (fun i => (d.readBlock (1 + i)).map (scanBlock i))
      (List.range (SuperBlock.fromBytes (d.block 0)).bitmapBlocks.toNat) =
      some ((List.range 5).findSome? fun i => scanBlock i (d.block (1 + i))) := by
    have hfive : (SuperBlock.fromBytes (d.block 0)).bitmapBlocks.toNat = 5 := by
      simp [hblocks]
    rw [hfive]
    apply scanM_pure
    intro i hi
    have hi : i < 5 := List.mem_range.mp hi
    rw [hd.readBlock (show 1 + i < 20480 by omega), Option.map_some]
  rw [allocateBlock, if_neg hfree, hread, Option.bind_eq_bind, Option.bind_some, hscan,
    Option.bind_eq_bind, Option.bind_some]
  cases hfound : (List.range 5).findSome? fun i => scanBlock i (d.block (1 + i)) with
  | none =>
    refine ⟨none, d, sb, rfl, fun _ => Or.inr fun b hb => ?_⟩
    have hnone := List.findSome?_eq_none_iff.mp hfound (b / 8 / 512)
      (List.mem_range.mpr (by omega))
    exact scanBlock_eq_none hnone _ (Nat.mod_lt _ (by decide)) _ (Nat.mod_lt _ (by decide))
  | some a =>
    obtain ⟨i, hi, hfi, -⟩ := findSome?_range_eq_some hfound
    obtain ⟨ha, -, -⟩ := scanBlock_eq_some (by omega) hfi
    have hlt : a < 20480 := by omega
    obtain ⟨d₁, hmark, -⟩ := markAllocated_spec hd sb hlt
    have hmax : ¬ a ≥ maxBlocks := by
      simp only [maxBlocks, diskSize, blockSize]
      omega
    refine ⟨some a, d₁, { sb with freeBlocks := sb.freeBlocks - 1 }, ?_, by simp⟩
    dsimp only
    rw [if_neg hmax, hmark]
    rfl

/-- The bits that `init_bitmap` sets in memory. -/
private theorem bit_foldl_locate {total : ℕ} (n : ℕ) (hn : n ≤ total * 8) {k j : ℕ}
    (hj : j < 8) :
    (((List.range n).foldl (fun (bitmap : Vector UInt8 total) b =>
      if b / 8 < total then bitmap.modifyByte (b / 8) fun x => x ||| UInt8.bitMask (b % 8)
      else bitmap) (Vector.zeros total)).byteAt k).bit j = decide (k * 8 + j < n) := by
  induction n with
  | zero => simp [UInt8.bit]
  | succ n ih =>
    rw [List.range_succ, List.foldl_append, List.foldl_cons, List.foldl_nil, if_pos (by omega),
      Vector.byteAt_modifyByte _ _ _ _ (by omega)]
    by_cases hbyte : k = n / 8
    · rw [if_pos hbyte, UInt8.bit_or_bitMask _ (Nat.mod_lt _ (by decide)) hj, ← hbyte,
        ih (by omega), Bool.eq_iff_iff]
      simp only [Bool.or_eq_true, decide_eq_true_eq]
      omega
    · rw [if_neg hbyte, ih (by omega), Bool.eq_iff_iff]
      simp only [decide_eq_true_eq]
      omega

/-- The writing of the bitmap, block by block. -/
theorem foldl_writeBlock {d : Disk} (hd : d.Sized) (f : ℕ → Block) {m : ℕ} (hm : m < 20000) :
    ((List.range m).foldl (fun d i => d.writeBlock (1 + i) (f i)) d).Sized ∧
      ∀ c, ((List.range m).foldl (fun d i => d.writeBlock (1 + i) (f i)) d).block c =
        if 1 ≤ c ∧ c ≤ m then f (c - 1) else d.block c := by
  induction m with
  | zero =>
    refine ⟨hd, fun c => ?_⟩
    rw [if_neg (by omega)]
    rfl
  | succ m ih =>
    obtain ⟨hsized, hblock⟩ := ih (by omega)
    rw [List.range_succ, List.foldl_append, List.foldl_cons, List.foldl_nil]
    refine ⟨hsized.writeBlock (by omega) _, fun c => ?_⟩
    rw [Disk.block_writeBlock, hblock]
    split_ifs with hc hin hin hin
    · rw [hc, Nat.add_sub_cancel_left]
    · omega
    · rfl
    · omega
    · omega
    · rfl

/-- Block `i` of a bitmap of `m` blocks in which the first `n` bits are set. -/
private def lowBits (m n i : ℕ) : Block :=
  ((List.range n).foldl (fun (bitmap : Vector UInt8 (m * blockSize)) b =>
    if b / 8 < m * blockSize then bitmap.modifyByte (b / 8) fun x => x ||| UInt8.bitMask (b % 8)
    else bitmap) (Vector.zeros (m * blockSize))).slice (i * blockSize) blockSize

private theorem initBitmap_eq (d : Disk) (sb : SuperBlock) :
    initBitmap d sb = (List.range sb.bitmapBlocks.toNat).foldl (fun d i =>
      d.writeBlock (1 + i) (lowBits sb.bitmapBlocks.toNat sb.dataStart.toNat i)) d := rfl

private theorem bit_lowBits {b : ℕ} (hb : b < 20480) :
    ((lowBits 5 31 (b / 8 / 512)).byteAt (b / 8 % 512)).bit (b % 8) = decide (b < 31) := by
  have hin : b / 8 % 512 < blockSize := Nat.mod_lt _ (by decide)
  rw [lowBits, Vector.byteAt_slice _ _ hin]
  simp only [blockSize]
  rw [bit_foldl_locate 31 (by decide) (Nat.mod_lt _ (by decide)), Bool.eq_iff_iff]
  simp only [decide_eq_true_eq]
  omega

/-- After `init_bitmap` the blocks before the data area are taken, and no others. -/
theorem initBitmap_spec {d : Disk} (hd : d.Sized) {sb : SuperBlock} (hblocks : sb.bitmapBlocks = 5)
    (hstart : sb.dataStart = 31) :
    (initBitmap d sb).Sized ∧ (∀ b < 20480, (initBitmap d sb).bit b = decide (b < 31)) ∧
      ∀ c, c = 0 ∨ 6 ≤ c → (initBitmap d sb).block c = d.block c := by
  have hfive : sb.bitmapBlocks.toNat = 5 := by simp [hblocks]
  have hlow : sb.dataStart.toNat = 31 := by simp [hstart]
  rw [initBitmap_eq, hfive, hlow]
  obtain ⟨hsized, hblock⟩ := foldl_writeBlock hd (lowBits 5 31) (m := 5) (by decide)
  refine ⟨hsized, fun b hb => ?_, fun c hc => ?_⟩
  · rw [Disk.bit, hblock, if_pos (by simp only [blockSize]; omega), Nat.add_sub_cancel_left]
    exact bit_lowBits hb
  · rw [hblock, if_neg (by omega)]

end Bitmap

end SimpleFS
