import SimpleFS.Requests.Consistent

/-! The requests that only look: none of them changes the disk, and `read` returns a slice of the
content. -/
namespace SimpleFS
open Overlay

namespace Fs

variable {fs fs' : Fs} {reply : Reply}

theorem getattr_unchanged {ino : ℕ} (h : fs.getattr ino = some (reply, fs')) : fs' = fs := by
  obtain ⟨inode, -, h⟩ := Option.bind_eq_some_iff.mp h
  split_ifs at h
  · exact (Prod.mk.inj (Option.some.inj h)).2.symm
  · exact (Prod.mk.inj (Option.some.inj h)).2.symm

theorem readdir_unchanged {ino : ℕ} {offset : Int64} {full : List DirItem → DirItem → Bool}
    (h : fs.readdir ino offset full = some (reply, fs')) : fs' = fs := by
  obtain ⟨inode, -, h⟩ := Option.bind_eq_some_iff.mp h
  split_ifs at h
  · exact (Prod.mk.inj (Option.some.inj h)).2.symm
  · obtain ⟨entries, -, h⟩ := Option.bind_eq_some_iff.mp h
    obtain ⟨items, -, h⟩ := Option.bind_eq_some_iff.mp h
    exact (Prod.mk.inj (Option.some.inj h)).2.symm

theorem lookup_unchanged {parent : ℕ} {name : ByteArray}
    (h : fs.lookup parent name = some (reply, fs')) : fs' = fs := by
  obtain ⟨inode, -, h⟩ := Option.bind_eq_some_iff.mp h
  obtain ⟨found, -, h⟩ := Option.bind_eq_some_iff.mp h
  cases found with
  | none => exact (Prod.mk.inj (Option.some.inj h)).2.symm
  | some slot =>
    obtain ⟨child, -, h⟩ := Option.bind_eq_some_iff.mp h
    exact (Prod.mk.inj (Option.some.inj h)).2.symm

theorem openFile_unchanged {ino : ℕ} {flags uid gid : UInt32}
    (h : fs.openFile ino flags uid gid = some (reply, fs')) : fs' = fs := by
  obtain ⟨inode, -, h⟩ := Option.bind_eq_some_iff.mp h
  dsimp only at h
  split_ifs at h
  · exact (Prod.mk.inj (Option.some.inj h)).2.symm
  · exact (Prod.mk.inj (Option.some.inj h)).2.symm

theorem read_unchanged {ino : ℕ} {offset : Int64} {size : UInt32}
    (h : fs.read ino offset size = some (reply, fs')) : fs' = fs := by
  obtain ⟨inode, -, h⟩ := Option.bind_eq_some_iff.mp h
  split_ifs at h
  · exact (Prod.mk.inj (Option.some.inj h)).2.symm
  · obtain ⟨result, -, h⟩ := Option.bind_eq_some_iff.mp h
    exact (Prod.mk.inj (Option.some.inj h)).2.symm

end Fs

section Read

variable {size : UInt32} {offset : Int64}

private theorem toInt_size (size : UInt32) : size.toUInt64.toInt64.toInt = size.toNat := by
  have hlt := size.toNat_lt
  show size.toUInt64.toBitVec.toInt = size.toNat
  rw [BitVec.toInt_eq_toNat_of_lt]
  · rw [UInt64.toNat_toBitVec, UInt32.toNat_toUInt64]
  · rw [UInt64.toNat_toBitVec, UInt32.toNat_toUInt64]
    omega

/-- The end of the file as `read` tests it. -/
theorem offset_ge_size (h : 0 ≤ offset.toInt) :
    offset ≥ size.toUInt64.toInt64 ↔ size.toNat ≤ offset.toInt.toNat := by
  rw [ge_iff_le, Int64.le_iff_toInt_le, toInt_size]
  omega

theorem toNat_offset (h : 0 ≤ offset.toInt) : offset.toUInt64.toNat = offset.toInt.toNat :=
  Int64.toNat_toUInt64_of_le (Int64.le_iff_toInt_le.mpr h)

/-- What `read` takes for the rest of the file. -/
theorem toNat_rest (h : 0 ≤ offset.toInt) (hlt : offset.toInt.toNat < size.toNat) :
    (size.toUInt64.toInt64 - offset).toUInt64.toUInt32.toNat = size.toNat - offset.toInt.toNat := by
  have hsize := size.toNat_lt
  have ho := toNat_offset h
  rw [Int64.toUInt64_sub, UInt64.toNat_toUInt32, UInt64.toUInt64_toInt64, UInt64.toNat_sub, ho,
    UInt32.toNat_toUInt64]
  omega

private theorem toNat_min (a b : UInt32) : (min a b).toNat = min a.toNat b.toNat := by
  show (if a ≤ b then a else b).toNat = min a.toNat b.toNat
  split_ifs with h
  · exact (min_eq_left (UInt32.le_iff_toNat_le.mp h)).symm
  · exact (min_eq_right (Nat.le_of_lt (UInt32.lt_iff_toNat_lt.mp (UInt32.not_le.mp h)))).symm

/-- The place in the file at which `read` begins. -/
theorem readPos (h : 0 ≤ offset.toInt) (hlt : offset.toInt.toNat < size.toNat) :
    offset.toUInt64.toUInt32.toNat / 510 * 510 + offset.toUInt64.toNat % 510 =
      offset.toInt.toNat := by
  have hsize := size.toNat_lt
  rw [UInt64.toNat_toUInt32, toNat_offset h]
  omega

/-- `read` returns the part of the content that was asked for, up to the end of the file. -/
theorem Fs.read_eq {fs : Fs} (hc : Consistent fs) {n : ℕ} (hn : fs.disk.Live n)
    (hm : (fs.disk.inode n).Mapped fs.disk)
    (hsize : (fs.disk.inode n).size.toNat ≤ 510 * (fs.disk.inode n).blockCount.toNat)
    (h : 0 ≤ offset.toInt) :
    fs.read n offset size = some (.data (window ((fs.disk.inode n).content fs.disk)
      offset.toInt.toNat
      (min size.toNat ((fs.disk.inode n).size.toNat - offset.toInt.toNat))), fs) := by
  rw [Fs.read, Consistent.asU32_of_inodeNo hn.1, hc.readInode hn.1, Option.bind_eq_bind,
    Option.bind_some]
  by_cases hend : (fs.disk.inode n).size.toNat ≤ offset.toInt.toNat
  · rw [if_pos ((offset_ge_size h).mpr hend), Nat.sub_eq_zero_of_le hend, Nat.min_zero, window_zero]
  · rw [if_neg (mt (offset_ge_size h).mp hend)]
    have hlt : offset.toInt.toNat < (fs.disk.inode n).size.toNat := by omega
    have hactual : (min size ((fs.disk.inode n).size.toUInt64.toInt64 -
        offset).toUInt64.toUInt32).toNat =
          min size.toNat ((fs.disk.inode n).size.toNat - offset.toInt.toNat) := by
      rw [toNat_min, toNat_rest h hlt]
    have hplaced := hc.placed hn
    have hpos := readPos h hlt
    have hloop := readLoop_eq hplaced.sized hplaced.onDisk hm (le_refl _)
      (Nat.mod_lt offset.toUInt64.toNat (by decide))
      (show offset.toUInt64.toUInt32.toNat / 510 * 510 + offset.toUInt64.toNat % 510 +
        min size.toNat ((fs.disk.inode n).size.toNat - offset.toInt.toNat) ≤ _ by
          rw [hpos]
          omega)
    simp only [pageSize, blockSize, Nat.reduceSub]
    rw [hactual, hloop, hpos, Option.bind_eq_bind, Option.bind_some]
    refine congrArg (fun bytes => some (Reply.data bytes, fs)) (window_congr fun x _ hx => ?_)
    rw [Inode.content, if_pos (by omega)]

end Read

/-- The loop of `read` looks at the blocks of the inode only, inside its block count. -/
theorem readLoop_congr {d d' : Disk} {i : Inode} (hd : d.Sized) (hd' : d'.Sized)
    (hb : i.OnDisk d) (hkeep : ∀ b ∈ i.refs d, d'.block b = d.block b) {turns : ℕ} :
    ∀ {remaining k off : ℕ}, remaining ≤ turns → off < 510 →
      k * 510 + off + remaining ≤ 510 * i.blockCount.toNat →
      Fs.readLoop d' i turns remaining k off = Fs.readLoop d i turns remaining k off := by
  have hptr := Inode.ptr_congr fun hi => hkeep _ (Inode.indirectBlock_mem_refs hi)
  have hb' : i.OnDisk d' := by
    intro b hmem
    rw [Inode.refs_congr fun hi => hkeep _ (Inode.indirectBlock_mem_refs hi)] at hmem
    exact hb b hmem
  induction turns with
  | zero =>
    intro remaining k off _ _ _
    rfl
  | succ turns ih =>
    intro remaining k off hr hoff hrange
    rw [Fs.readLoop, Fs.readLoop]
    by_cases hz : remaining = 0
    · rw [if_pos hz, if_pos hz]
    · have hk : k < i.blockCount.toNat := by omega
      obtain ⟨m, hmin, hmr, hfit, hlast⟩ := piece_spec remaining hoff
      have hpos : 0 < m := by omega
      have hnext : Fs.readLoop d' i turns (remaining - m) (k + 1) 0 =
          Fs.readLoop d i turns (remaining - m) (k + 1) 0 :=
        ih (by omega) (by omega) (piece_rest hlast hk hrange)
      rw [if_neg hz, if_neg hz, hb.getBlock hd, hb'.getBlock hd', hptr]
      simp only [Option.bind_eq_bind, Option.bind_some]
      cases hp : Inode.pointer (i.ptr d k) with
      | none => simp only
      | some b =>
        have hp' : Inode.pointer (i.ptr d' k) = some b := by rw [hptr, hp]
        have hmem : b ∈ i.refs d := by
          obtain ⟨rfl, h0⟩ := Inode.pointer_eq_some.mp hp
          exact Inode.mem_refs_of_mem_blocks (Inode.mem_blocks_of_ptr hk h0)
        simp only [Option.bind_some, hb.readBlock hd hk hp, hb'.readBlock hd' hk hp', hkeep b hmem,
          pageSize, blockSize, Nat.reduceSub, hmin, hnext]

/-- `read` answers the same when the inode and its blocks are the same. -/
theorem Fs.read_congr {fs fs' : Fs} (hc : Consistent fs) (hc' : Consistent fs') {n : ℕ}
    (hn : fs.disk.Live n) (hu : Untouched fs.disk fs'.disk n)
    (hsize : (fs.disk.inode n).size.toNat ≤ 510 * (fs.disk.inode n).blockCount.toNat)
    {offset : Int64} (h : 0 ≤ offset.toInt) (size : UInt32) :
    (fs'.read n offset size).map Prod.fst = (fs.read n offset size).map Prod.fst := by
  have hplaced := hc.placed hn
  rw [Fs.read, Fs.read, Consistent.asU32_of_inodeNo hn.1, hc.readInode hn.1,
    hc'.readInode hn.1, hu.inode]
  simp only [Option.bind_eq_bind, Option.bind_some]
  by_cases hend : (fs.disk.inode n).size.toNat ≤ offset.toInt.toNat
  · rw [if_pos ((offset_ge_size h).mpr hend), if_pos ((offset_ge_size h).mpr hend)]
    rfl
  · rw [if_neg (mt (offset_ge_size h).mp hend), if_neg (mt (offset_ge_size h).mp hend)]
    have hlt : offset.toInt.toNat < (fs.disk.inode n).size.toNat := by omega
    have hpos := readPos h hlt
    have hmin : (min size ((fs.disk.inode n).size.toUInt64.toInt64 -
        offset).toUInt64.toUInt32).toNat ≤ (fs.disk.inode n).size.toNat - offset.toInt.toNat := by
      rw [toNat_min, toNat_rest h hlt]
      exact min_le_right _ _
    simp only [pageSize, blockSize, Nat.reduceSub]
    rw [readLoop_congr hc.sized hc'.sized hplaced.onDisk hu.block (le_refl _)
      (Nat.mod_lt _ (by decide)) (by rw [hpos]; omega)]
    cases Fs.readLoop fs.disk _ _ _ _ _ <;> rfl

end SimpleFS
