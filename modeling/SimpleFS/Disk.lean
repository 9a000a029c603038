import SimpleFS.Foundation.Buffer

/-! The disk layer: an image file read and written in whole blocks. A failed system call
panics in the program and is `none` here; writing cannot fail, since the host file system
is outside the model. -/
namespace SimpleFS

/-- `DISK_SIZE`, in bytes. -/
abbrev diskSize : ℕ := 10 * 1024 * 1024

/-- `BLOCK_SIZE`, in bytes. -/
abbrev blockSize : ℕ := 512

/-- `PAGE_SIZE`: the part of a block that holds data; the last two bytes are left free. -/
abbrev pageSize : ℕ := blockSize - 2

/-- `MAX_BLOCKS`. -/
abbrev maxBlocks : ℕ := diskSize / blockSize

abbrev Block := Vector UInt8 blockSize

/-- The image file behind the descriptor: its length, its bytes, and the `write_block` calls
made so far, the latest first. A crash keeps the effect of some first part of them. -/
structure Disk where
  size : ℕ
  byte : ℕ → UInt8
  writes : List (ℕ × Block)

namespace Disk

/-- The image file as found on the host, before any write. -/
def ofImage (image : List UInt8) : Disk :=
  ⟨image.length, fun k => image.getD k 0, []⟩

/-- `truncate`: bytes up to the old end are kept, the rest reads as zero. -/
def truncate (d : Disk) (size : ℕ) : Disk :=
  { d with size := size, byte := fun k => if k < d.size ∧ k < size then d.byte k else 0 }

/-- The 512 bytes at block `b`. -/
def block (d : Disk) (b : ℕ) : Block := .ofFn fun i => d.byte (b * blockSize + i)

/-- `read_block`: a short read panics. -/
def readBlock (d : Disk) (b : ℕ) : Option Block :=
  if (b + 1) * blockSize ≤ d.size then some (d.block b) else none

/-- `write_block`: past the end, the write extends the file. -/
def writeBlock (d : Disk) (b : ℕ) (buf : Block) : Disk where
  size := max d.size ((b + 1) * blockSize)
  byte k := if b * blockSize ≤ k ∧ k < (b + 1) * blockSize then buf.byteAt (k - b * blockSize)
    else d.byte k
  writes := (b, buf) :: d.writes

theorem readBlock_eq_some {d : Disk} {b : ℕ} {buf : Block} (h : d.readBlock b = some buf) :
    buf = d.block b := by
  unfold readBlock at h
  split_ifs at h
  exact (Option.some.inj h).symm

theorem readBlock_of_le {d : Disk} {b : ℕ} (h : (b + 1) * blockSize ≤ d.size) :
    d.readBlock b = some (d.block b) := if_pos h

theorem block_writeBlock (d : Disk) (b c : ℕ) (buf : Block) :
    (d.writeBlock b buf).block c = if c = b then buf else d.block c := by
  apply Vector.ext_byteAt
  intro i hi
  simp only [block, writeBlock, Vector.byteAt_ofFn _ hi]
  simp only [blockSize] at hi ⊢
  split_ifs with h hc hc
  · subst hc
    rw [Nat.add_sub_cancel_left]
  · omega
  · omega
  · rw [Vector.byteAt_ofFn _ hi]

@[simp] theorem block_writeBlock_self (d : Disk) (b : ℕ) (buf : Block) :
    (d.writeBlock b buf).block b = buf := by
  simp [block_writeBlock]

theorem block_writeBlock_of_ne (d : Disk) {b c : ℕ} (buf : Block) (h : c ≠ b) :
    (d.writeBlock b buf).block c = d.block c := by
  simp [block_writeBlock, h]

/-- The image has the size that formatting gives it. -/
def Sized (d : Disk) : Prop := d.size = diskSize

theorem Sized.readBlock {d : Disk} (h : d.Sized) {b : ℕ} (hb : b < 20480) :
    d.readBlock b = some (d.block b) := by
  have hs : d.size = 10485760 := h
  apply readBlock_of_le
  simp only [blockSize]
  omega

theorem Sized.readBlock_eq_some {d : Disk} (h : d.Sized) {b : ℕ} {buf : Block}
    (hr : d.readBlock b = some buf) : b < 20480 ∧ buf = d.block b := by
  have hs : d.size = 10485760 := h
  simp only [Disk.readBlock, blockSize, Option.ite_none_right_eq_some, Option.some.injEq] at hr
  exact ⟨by omega, hr.2.symm⟩

theorem Sized.writeBlock {d : Disk} (h : d.Sized) {b : ℕ} (hb : b < 20480) (buf : Block) :
    (d.writeBlock b buf).Sized := by
  have hs : d.size = 10485760 := h
  simp only [Sized, Disk.writeBlock, diskSize, blockSize]
  omega

end Disk

end SimpleFS
