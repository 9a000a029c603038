import SimpleFS.Foundation.Overlay
import SimpleFS.Image.Growth

/-! The bytes of a file, and the loops of `read` and `write` on them. -/
namespace SimpleFS
open Overlay

/-- The byte at position `x` of a file: each block holds 510 of them. -/
def Inode.byte (d : Disk) (i : Inode) (x : ℕ) : UInt8 :=
  (d.block (i.ptr d (x / 510))).byteAt (x % 510)

/-- The bytes of a file as a whole: past its blocks there is nothing but zeros. -/
def Inode.content (d : Disk) (i : Inode) (x : ℕ) : UInt8 :=
  if x < 510 * i.blockCount.toNat then i.byte d x else 0

/-- The piece that one turn of a loop takes: it stays in its block, and is the last one unless it
fills the block. -/
theorem piece_spec (remaining : ℕ) {off : ℕ} (hoff : off < 510) :
    ∃ m, min remaining (510 - off) = m ∧ m ≤ remaining ∧ off + m ≤ 510 ∧
      (m = remaining ∨ off + m = 510) := by
  refine ⟨_, rfl, min_le_left _ _, by omega, ?_⟩
  rcases Nat.le_or_ge remaining (510 - off) with h | h
  · exact Or.inl (min_eq_left h)
  · rw [min_eq_right h]
    omega

/-- What is left after a piece still lies in the first `c` blocks. -/
theorem piece_rest {remaining off m k c : ℕ} (hm : m = remaining ∨ off + m = 510) (hk : k < c)
    (h : k * 510 + off + remaining ≤ 510 * c) :
    (k + 1) * 510 + 0 + (remaining - m) ≤ 510 * c := by
  rw [Nat.add_zero]
  omega

section ReadLoop

variable {d : Disk} {i : Inode}

private theorem window_byte (k : ℕ) {off n : ℕ} (h : off + n ≤ 510) :
    (List.range n).map (fun j => (d.block (i.ptr d k)).byteAt (off + j)) =
      window (i.byte d) (k * 510 + off) n := by
  refine List.map_congr_left fun j hj => ?_
  have hj := List.mem_range.mp hj
  have hdiv : (k * 510 + off + j) / 510 = k := by omega
  have hmod : (k * 510 + off + j) % 510 = off + j := by omega
  simp only [Inode.byte, hdiv, hmod]

/-- Inside the mapped part of a file the loop of `read` returns its bytes. -/
theorem readLoop_eq (hd : d.Sized) (hb : i.OnDisk d) (hm : i.Mapped d) {turns : ℕ} :
    ∀ {remaining k off : ℕ}, remaining ≤ turns → off < 510 →
      k * 510 + off + remaining ≤ 510 * i.blockCount.toNat →
      Fs.readLoop d i turns remaining k off = some (window (i.byte d) (k * 510 + off) remaining) := by
  induction turns with
  | zero =>
    intro remaining k off hr _ _
    obtain rfl : remaining = 0 := by omega
    rw [Fs.readLoop, window_zero]
  | succ turns ih =>
    intro remaining k off hr hoff hrange
    rw [Fs.readLoop]
    by_cases hz : remaining = 0
    · rw [if_pos hz, hz, window_zero]
    · have hk : k < i.blockCount.toNat := by omega
      have hp : Inode.pointer (i.ptr d k) = some (i.ptr d k) :=
        Inode.pointer_eq_some.mpr ⟨rfl, hm k hk⟩
      obtain ⟨m, hmin, hmr, hfit, hlast⟩ := piece_spec remaining hoff
      have hrest : window (i.byte d) ((k + 1) * 510 + 0) (remaining - m) =
          window (i.byte d) (k * 510 + off + m) (remaining - m) := by
        rcases hlast with rfl | hfull
        · rw [Nat.sub_self, window_zero, window_zero]
        · rw [Nat.add_zero, show (k + 1) * 510 = k * 510 + off + m by omega]
      have hpos : 0 < m := by omega
      have hnext : Fs.readLoop d i turns (remaining - m) (k + 1) 0 =
          some (window (i.byte d) ((k + 1) * 510 + 0) (remaining - m)) :=
        ih (by omega) (by omega) (piece_rest hlast hk hrange)
      rw [if_neg hz, hb.getBlock hd, hp, Option.bind_eq_bind, Option.bind_some]
      dsimp only
      rw [hb.readBlock hd hk hp, Option.bind_eq_bind, Option.bind_some]
      simp only [pageSize, blockSize, Nat.reduceSub, hmin]
      rw [hnext, Option.bind_eq_bind, Option.bind_some, window_byte k hfit, hrest,
        ← window_append, Nat.add_sub_cancel' hmr]

end ReadLoop

/-- `data` was stored at position `pos` of the file, in its own blocks. -/
structure Stored (fs fs' : Fs) (i : Inode) (pos : ℕ) (data : List UInt8) : Prop where
  footprint : Footprint fs fs' [] (i.blocks fs.disk) [] []
  ptr : ∀ k, i.ptr fs'.disk k = i.ptr fs.disk k
  byte : i.Mapped fs.disk → ∀ x < 510 * i.blockCount.toNat,
    i.byte fs'.disk x = patch (i.byte fs.disk) pos data x

namespace Stored

variable {fs fs₁ fs' : Fs} {i : Inode} {pos : ℕ} {data : List UInt8}

theorem blocks (h : Stored fs fs' i pos data) : i.blocks fs'.disk = i.blocks fs.disk := by
  simp only [Inode.blocks, h.ptr]

theorem refs (h : Stored fs fs' i pos data) : i.refs fs'.disk = i.refs fs.disk := by
  rw [Inode.refs, h.blocks, Inode.refs]

theorem mapped (h : Stored fs fs' i pos data) (hm : i.Mapped fs.disk) : i.Mapped fs'.disk := by
  intro k hk
  rw [h.ptr]
  exact hm k hk

theorem placed (h : Stored fs fs' i pos data) (hp : Placed fs i) : Placed fs' i where
  sized := h.footprint.sized
  layout := h.footprint.layout
  inodeNo := hp.inodeNo
  range b hb := hp.range b (h.refs ▸ hb)
  nodup := by
    rw [h.refs]
    exact hp.nodup

/-- A piece inside one block. -/
theorem piece (hp : Placed fs i) {k off : ℕ} (hk : k < i.blockCount.toNat)
    (h0 : i.ptr fs.disk k ≠ 0) (hfit : off + data.length ≤ 510) (hoff : off < 510)
    {src : ℕ → UInt8} (hsrc : ∀ j < data.length, data[j]? = some (src j)) :
    Stored fs ⟨fs.disk.writeBlock (i.ptr fs.disk k)
      ((fs.disk.block (i.ptr fs.disk k)).copyAt off data.length src), fs.sb⟩ i (k * 510 + off)
      data := by
  have hmem := Inode.mem_blocks_of_ptr hk h0
  obtain ⟨hlow, hlt, hr⟩ := hp.range _ (Inode.mem_refs_of_mem_blocks hmem)
  have hw := Footprint.writeBlock hp.sized hp.layout
    ((fs.disk.block (i.ptr fs.disk k)).copyAt off data.length src) (Or.inl (by omega)) hlt hr
  have hptr := Inode.ptr_congr (Inode.block_indirect_writeBlock hmem hp.nodup
    ((fs.disk.block (i.ptr fs.disk k)).copyAt off data.length src))
  refine ⟨hw.mono (List.Subset.refl _) (by simpa using hmem), hptr, fun hm x hx => ?_⟩
  have hxk : x / 510 < i.blockCount.toNat := by omega
  rw [Inode.byte, hptr]
  dsimp only
  by_cases hsame : x / 510 = k
  · rw [hsame, Disk.block_writeBlock_self, Vector.byteAt_copyAt]
    have hmod : x % 510 < blockSize := by
      simp only [blockSize]
      omega
    unfold patch
    split_ifs with hin hle hle
    · rw [hsrc _ (by omega), Option.getD_some] at *
      congr 1
      omega
    · omega
    · rw [List.getElem?_eq_none (by omega), Option.getD_none, Inode.byte, hsame]
    · rw [Inode.byte, hsame]
  · rw [Disk.block_writeBlock_of_ne _ _ fun heq =>
      hsame (hm.ptr_inj (List.nodup_append.mp hp.nodup).1 hxk hk heq),
      patch_of_outside _ (by omega), Inode.byte]

theorem trans {data' : List UInt8} (h : Stored fs fs₁ i pos data)
    (h' : Stored fs₁ fs' i (pos + data.length) data') : Stored fs fs' i pos (data ++ data') where
  footprint := h.footprint.trans_alloc h'.footprint fun b hb => Or.inl (h.blocks ▸ hb)
  ptr k := (h'.ptr k).trans (h.ptr k)
  byte hm x hx := by
    rw [h'.byte (h.mapped hm) x hx, patch_append]
    exact patch_congr (h.byte hm x hx)

/-- Storing nothing is the same at every position. -/
theorem move (h : Stored fs fs' i pos []) (pos' : ℕ) : Stored fs fs' i pos' [] where
  footprint := h.footprint
  ptr := h.ptr
  byte hm x hx := by rw [h.byte hm x hx, patch_nil, patch_nil]

end Stored

namespace Grown

variable {fs fs' : Fs} {i i' : Inode} {n : ℕ} {new : List ℕ}

/-- Growing a file adds zeros. -/
theorem content (h : Grown fs fs' i i' n new) (hp : Placed fs i)
    (hused : ∀ b ∈ i.refs fs.disk, fs.disk.bit b = true) (hm : i.Mapped fs.disk) :
    i'.content fs'.disk = i.content fs.disk := by
  have hcount := h.blockCount
  funext x
  unfold Inode.content
  by_cases hx : x < 510 * i.blockCount.toNat
  · have hk : x / 510 < i.blockCount.toNat := by omega
    rw [if_pos hx, if_pos (by omega), Inode.byte, Inode.byte, h.ptr _ hk,
      h.block_of_mem_blocks hp hused (Inode.mem_blocks_of_ptr hk (hm _ hk))]
  · rw [if_neg hx]
    split_ifs with hx'
    · rw [Inode.byte, (h.fresh hm.linked (x / 510) (by omega) (by omega)).2, Vector.byteAt_zeros]
    · rfl

/-- The inode that the growing began with still has its content. -/
theorem stale_content (h : Grown fs fs' i i' n new) (hp : Placed fs i)
    (hused : ∀ b ∈ i.refs fs.disk, fs.disk.bit b = true) (hm : i.Mapped fs.disk) :
    i.content fs'.disk = i.content fs.disk := by
  funext x
  unfold Inode.content
  split_ifs with hx
  · have hk : x / 510 < i.blockCount.toNat := by omega
    rw [Inode.byte, Inode.byte, h.stale hk,
      h.block_of_mem_blocks hp hused (Inode.mem_blocks_of_ptr hk (hm _ hk))]
  · rfl

end Grown

theorem Stored.content {fs fs' : Fs} {i : Inode} {pos : ℕ} {data : List UInt8}
    (h : Stored fs fs' i pos data) (hm : i.Mapped fs.disk)
    (hfit : pos + data.length ≤ 510 * i.blockCount.toNat) :
    i.content fs'.disk = patch (i.content fs.disk) pos data := by
  funext x
  by_cases hx : x < 510 * i.blockCount.toNat
  · rw [Inode.content, if_pos hx, h.byte hm x hx]
    exact patch_congr (by rw [Inode.content, if_pos hx])
  · rw [patch_of_outside _ (Or.inr (by omega)), Inode.content, Inode.content, if_neg hx, if_neg hx]

/-- The content depends on the map of the inode and on its blocks only. -/
theorem Inode.content_congr {d d' : Disk} {i : Inode} (hm : i.Mapped d)
    (h : ∀ b ∈ i.refs d, d'.block b = d.block b) : i.content d' = i.content d := by
  funext x
  unfold Inode.content
  split_ifs with hx
  · have hk : x / 510 < i.blockCount.toNat := by omega
    rw [Inode.byte, Inode.byte, Inode.ptr_congr fun hi => h _ (Inode.indirectBlock_mem_refs hi),
      h _ (Inode.mem_refs_of_mem_blocks (Inode.mem_blocks_of_ptr hk (hm _ hk)))]
  · rfl

theorem Untouched.content {d d' : Disk} {n : ℕ} (h : Untouched d d' n)
    (hm : (d.inode n).Mapped d) : (d'.inode n).content d' = (d.inode n).content d := by
  rw [h.inode]
  exact Inode.content_congr hm h.block

private theorem take_getElem? {data : List UInt8} {m : ℕ} (hm : m ≤ data.length) :
    ∀ j < (data.take m).length, (data.take m)[j]? = some (data[j]?.getD 0) := by
  intro j hj
  rw [List.length_take] at hj
  rw [List.getElem?_take, if_pos (by omega), List.getElem?_eq_getElem (by omega), Option.getD_some]

/-- The loop of `write` stores the data in the mapped part of a file. -/
theorem writeLoop_outcome {i : Inode} {turns : ℕ} :
    ∀ {fs : Fs} {k off : ℕ} {data : List UInt8}, Placed fs i → data.length ≤ turns → off < 510 →
      k * 510 + off + data.length ≤ 510 * i.blockCount.toNat →
      ∃ found d', Fs.writeLoop i turns fs.disk k off data = some (found, d') ∧
        (found = true ∧ Stored fs ⟨d', fs.sb⟩ i (k * 510 + off) data ∨
          found = false ∧ ¬ i.Mapped fs.disk) := by
  have hdone : ∀ {fs : Fs} (pos : ℕ), Placed fs i → Stored fs fs i pos [] := fun pos hp =>
    ⟨(Footprint.refl hp.sized hp.layout).mono (List.Subset.refl _) (List.nil_subset _),
      fun _ => rfl, fun _ _ _ => by rw [patch_nil]⟩
  induction turns with
  | zero =>
    intro fs k off data hp hlen _ _
    obtain rfl := List.eq_nil_of_length_eq_zero (show data.length = 0 by omega)
    exact ⟨true, fs.disk, rfl, Or.inl ⟨rfl, hdone _ hp⟩⟩
  | succ turns ih =>
    intro fs k off data hp hlen hoff hrange
    rw [Fs.writeLoop]
    by_cases hz : data.length = 0
    · rw [if_pos hz]
      obtain rfl := List.eq_nil_of_length_eq_zero hz
      exact ⟨true, fs.disk, rfl, Or.inl ⟨rfl, hdone _ hp⟩⟩
    · have hk : k < i.blockCount.toNat := by omega
      rw [if_neg hz, hp.onDisk.getBlock hp.sized, Option.bind_eq_bind, Option.bind_some]
      cases hb : Inode.pointer (i.ptr fs.disk k) with
      | none =>
        refine ⟨false, fs.disk, rfl, Or.inr ⟨rfl, fun hm => ?_⟩⟩
        rw [Inode.pointer, if_neg (hm k hk)] at hb
        cases hb
      | some b =>
        obtain ⟨rfl, h0⟩ := Inode.pointer_eq_some.mp hb
        obtain ⟨m, hmin, hmr, hfit, hlast⟩ := piece_spec data.length hoff
        simp only [hp.onDisk.readBlock hp.sized hk hb, Option.bind_eq_bind, Option.bind_some,
          pageSize, blockSize, Nat.reduceSub, hmin]
        have hlen' : (data.take m).length = m := by
          rw [List.length_take]
          omega
        have hpiece := Stored.piece hp hk h0 (by omega) hoff (take_getElem? hmr)
        rw [hlen'] at hpiece
        have hdrop : (data.drop m).length = data.length - m := List.length_drop
        have hpos : 0 < m := by omega
        obtain ⟨found, d', hloop, hrest⟩ := @ih _ (k + 1) 0 (data.drop m) (hpiece.placed hp)
          (by omega) (by omega) (hdrop ▸ piece_rest hlast hk hrange)
        refine ⟨found, d', hloop, ?_⟩
        rcases hrest with ⟨hfound, hstored⟩ | ⟨hfound, hm⟩
        · left
          refine ⟨hfound, ?_⟩
          rcases hlast with hall | hfull
          · rw [List.drop_eq_nil_of_le (by omega)] at hstored
            have hboth := hpiece.trans (hstored.move _)
            rwa [List.append_nil, List.take_of_length_le (by omega)] at hboth
          · have hnext : (k + 1) * 510 + 0 = k * 510 + off + (data.take m).length := by
              rw [hlen', Nat.add_zero]
              omega
            rw [hnext] at hstored
            have hboth := hpiece.trans hstored
            rwa [List.take_append_drop] at hboth
        · right
          exact ⟨hfound, fun hm' => hm (hpiece.mapped hm')⟩

end SimpleFS
