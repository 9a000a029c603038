import SimpleFS.Image.DirUpdates

/-! The growing of a file by the loop of `write`, which works on a copy of the inode. -/
namespace SimpleFS
open Bitmap

namespace Inode

/-- The block that growing writes besides the new ones: the indirect block, once the direct
pointers are used up. It is block 0 when a long inode has no indirect block. -/
def slack (i : Inode) : List ℕ := if 10 < i.blockCount.toNat then [i.indirectBlock.toNat] else []

/-- A long inode has an indirect block. -/
def Linked (i : Inode) : Prop := 10 < i.blockCount.toNat → i.indirectBlock ≠ 0

/-- Only a long inode has an indirect block. -/
def Shaped (i : Inode) : Prop := i.indirectBlock ≠ 0 ↔ 10 < i.blockCount.toNat

theorem Mapped.linked {d : Disk} {i : Inode} (h : i.Mapped d) : i.Linked := by
  intro hc hi
  apply h 10 hc
  rw [ptr, if_neg (by decide), if_neg (fun hn => hn.1 hi)]

theorem mem_slack {i : Inode} {b : ℕ} :
    b ∈ i.slack ↔ 10 < i.blockCount.toNat ∧ b = i.indirectBlock.toNat := by
  unfold slack
  split_ifs with h <;> simp [h]

theorem slack_subset_refs {d : Disk} {i : Inode} (h : i.Linked) : i.slack ⊆ i.refs d := by
  intro b hb
  obtain ⟨hc, rfl⟩ := mem_slack.mp hb
  exact indirectBlock_mem_refs (h hc)

theorem not_mem_slack_of_mem_blocks {d : Disk} {i : Inode} (hn : (i.refs d).Nodup) {b : ℕ}
    (hb : b ∈ i.blocks d) : b ∉ i.slack := by
  intro hs
  obtain ⟨-, rfl⟩ := mem_slack.mp hs
  have hi : i.indirectBlock ≠ 0 := by
    intro h0
    apply (mem_blocks.mp hb).1
    rw [h0]
    rfl
  rw [refs, if_neg hi] at hn
  exact (List.nodup_append.mp hn).2.2 _ hb _ (List.mem_singleton.mpr rfl) rfl

/-- The number of blocks allocated for `n` more data blocks. -/
def growAsks (i : Inode) (n : ℕ) : ℕ :=
  n + if i.blockCount.toNat ≤ 10 ∧ 10 < i.blockCount.toNat + n then 1 else 0

end Inode

/-- Inode `i` became `i'` by `n` turns of the growing loop, which allocated `new`. -/
structure Grown (fs fs' : Fs) (i i' : Inode) (n : ℕ) (new : List ℕ) : Prop where
  footprint : Footprint fs fs' [] i.slack new []
  inodeNo : i'.inodeNo = i.inodeNo
  mode : i'.mode = i.mode
  nlink : i'.nlink = i.nlink
  size : i'.size = i.size
  blockCount : i'.blockCount.toNat = i.blockCount.toNat + n
  count : new.length = i.growAsks n
  direct : ∀ k < i.blockCount.toNat, i'.direct k = i.direct k
  indirect : 10 < i.blockCount.toNat → i'.indirectBlock = i.indirectBlock
  ptr : ∀ k < i.blockCount.toNat, i'.ptr fs'.disk k = i.ptr fs.disk k
  fresh : i.Linked → ∀ k, i.blockCount.toNat ≤ k → k < i'.blockCount.toNat →
    i'.ptr fs'.disk k ∈ new ∧ fs'.disk.block (i'.ptr fs'.disk k) = Vector.zeros blockSize
  refs : ∀ b ∈ i'.refs fs'.disk, b ∈ i.refs fs.disk ∨ b ∈ new
  nodup : (i'.refs fs'.disk).Nodup
  linked : i.Linked → i'.Linked
  slack : ∀ b ∈ i'.slack, b ∈ i.slack ∨ b ∈ new
  shaped : i.Shaped → i'.Shaped ∧ (i'.refs fs'.disk).Perm (i.refs fs.disk ++ new)

namespace Grown

variable {fs fs₁ fs' : Fs} {i i₁ i' : Inode} {n m : ℕ} {new new₁ : List ℕ}

theorem refl (hp : Placed fs i) : Grown fs fs i i 0 [] where
  footprint := (Footprint.refl hp.sized hp.layout).mono (List.Subset.refl _) (List.nil_subset _)
  inodeNo := rfl
  mode := rfl
  nlink := rfl
  size := rfl
  blockCount := rfl
  count := by
    rw [Inode.growAsks, if_neg (by omega)]
    rfl
  direct _ _ := rfl
  indirect _ := rfl
  ptr _ _ := rfl
  fresh _ k hk hk' := by omega
  refs b hb := Or.inl hb
  nodup := hp.nodup
  linked h := h
  slack b hb := Or.inl hb
  shaped h := ⟨h, by rw [List.append_nil]⟩

theorem placed (h : Grown fs fs' i i' n new) (hp : Placed fs i) : Placed fs' i' where
  sized := h.footprint.sized
  layout := h.footprint.layout
  inodeNo := h.inodeNo ▸ hp.inodeNo
  range b hb := by
    rcases h.refs b hb with hb | hb
    · exact hp.range b hb
    · obtain ⟨hlow, hlt, -, hr⟩ := h.footprint.fresh b hb
      exact ⟨hlow, hlt, hr⟩
  nodup := h.nodup

theorem used (h : Grown fs fs' i i' n new) (hp : Placed fs i)
    (hused : ∀ b ∈ i.refs fs.disk, fs.disk.bit b = true) :
    ∀ b ∈ i'.refs fs'.disk, fs'.disk.bit b = true := by
  intro b hb
  rcases h.refs b hb with hb | hb
  · rw [h.footprint.bit b (hp.range b hb).2.1, hused b hb]
    simp
  · rw [h.footprint.bit b (h.footprint.fresh b hb).2.1]
    simp [hb]

theorem mapped (h : Grown fs fs' i i' n new) (hm : i.Mapped fs.disk) : i'.Mapped fs'.disk := by
  intro k hk
  by_cases hlt : k < i.blockCount.toNat
  · rw [h.ptr k hlt]
    exact hm k hlt
  · have hnew := (h.fresh hm.linked k (by omega) hk).1
    have := (h.footprint.fresh _ hnew).1
    omega

/-- The old data blocks keep their content. -/
theorem block_of_mem_blocks (h : Grown fs fs' i i' n new) (hp : Placed fs i)
    (hused : ∀ b ∈ i.refs fs.disk, fs.disk.bit b = true) {b : ℕ} (hb : b ∈ i.blocks fs.disk) :
    fs'.disk.block b = fs.disk.block b := by
  have hmem := Inode.mem_refs_of_mem_blocks hb
  obtain ⟨hlow, -, hr⟩ := hp.range b hmem
  refine h.footprint.block b (by omega) hr (Inode.not_mem_slack_of_mem_blocks hp.nodup hb)
    fun hnew => ?_
  have := (h.footprint.fresh b hnew).2.2.1
  simp [hused b hmem] at this

/-- The inode that the growing began with still has its blocks. -/
theorem stale (h : Grown fs fs' i i' n new) {k : ℕ} (hk : k < i.blockCount.toNat) :
    i.ptr fs'.disk k = i.ptr fs.disk k := by
  rw [← h.ptr k hk, Inode.ptr, Inode.ptr, h.direct k hk]
  split_ifs with hlt hi hi' hi'
  · rfl
  · rw [h.indirect (by omega)]
  · rw [h.indirect (by omega)] at hi'
    exact absurd hi hi'
  · rw [h.indirect (by omega)] at hi'
    exact absurd hi' hi
  · rfl

theorem stale_blocks (h : Grown fs fs' i i' n new) : i.blocks fs'.disk = i.blocks fs.disk := by
  refine List.filterMap_congr fun k hk => ?_
  rw [h.stale (List.mem_range.mp hk)]

theorem trans (h : Grown fs fs₁ i i₁ n new) (h' : Grown fs₁ fs' i₁ i' m new₁) (hp : Placed fs i)
    (hused : ∀ b ∈ i.refs fs.disk, fs.disk.bit b = true) :
    Grown fs fs' i i' (n + m) (new ++ new₁) where
  footprint := h.footprint.trans_alloc
    (h'.footprint.mono (List.Subset.refl _) (List.Subset.refl _)) h.slack
  inodeNo := h'.inodeNo.trans h.inodeNo
  mode := h'.mode.trans h.mode
  nlink := h'.nlink.trans h.nlink
  size := h'.size.trans h.size
  blockCount := by rw [h'.blockCount, h.blockCount, Nat.add_assoc]
  count := by
    rw [List.length_append, h.count, h'.count, Inode.growAsks, Inode.growAsks, Inode.growAsks,
      h.blockCount]
    split_ifs <;> omega
  direct k hk := (h'.direct k (by rw [h.blockCount]; omega)).trans (h.direct k hk)
  indirect hc := (h'.indirect (by rw [h.blockCount]; omega)).trans (h.indirect hc)
  ptr k hk := (h'.ptr k (by rw [h.blockCount]; omega)).trans (h.ptr k hk)
  fresh hl k hk hk' := by
    by_cases hlt : k < i₁.blockCount.toNat
    · obtain ⟨hnew, hzero⟩ := h.fresh hl k hk hlt
      rw [h'.ptr k hlt]
      refine ⟨List.mem_append_left _ hnew, ?_⟩
      have hne : i₁.ptr fs₁.disk k ≠ 0 := by
        have := (h.footprint.fresh _ hnew).1
        omega
      rw [h'.block_of_mem_blocks (h.placed hp) (h.used hp hused) (Inode.mem_blocks_of_ptr hlt hne),
        hzero]
    · obtain ⟨hnew, hzero⟩ := h'.fresh (h.linked hl) k (by omega) hk'
      exact ⟨List.mem_append_right _ hnew, hzero⟩
  refs b hb := by
    rcases h'.refs b hb with hb | hb
    · exact (h.refs b hb).imp_right (List.mem_append_left _)
    · exact Or.inr (List.mem_append_right _ hb)
  nodup := h'.nodup
  linked hl := h'.linked (h.linked hl)
  slack b hb := by
    rcases h'.slack b hb with hb | hb
    · exact (h.slack b hb).imp_right (List.mem_append_left _)
    · exact Or.inr (List.mem_append_right _ hb)
  shaped hs := by
    obtain ⟨hs₁, hperm₁⟩ := h.shaped hs
    obtain ⟨hs', hperm'⟩ := h'.shaped hs₁
    refine ⟨hs', hperm'.trans ?_⟩
    rw [← List.append_assoc]
    exact hperm₁.append_right _

/-- One turn, put together from what it does to the block map. `b` is the new data block; the
second case is the turn that starts the indirect block `c`. -/
private theorem step {b : ℕ} (hp : Placed fs i)
    (hused : ∀ b ∈ i.refs fs.disk, fs.disk.bit b = true)
    (hf : Footprint fs fs' [] i.slack new [])
    (hattrs : i' = { i with
      directBlocks := i'.directBlocks
      indirectBlock := i'.indirectBlock
      blockCount := i'.blockCount })
    (hcount : i'.blockCount.toNat = i.blockCount.toNat + 1)
    (hdirect : ∀ k < i.blockCount.toNat, i'.direct k = i.direct k)
    (hptr : ∀ k < i.blockCount.toNat, i'.ptr fs'.disk k = i.ptr fs.disk k)
    (hlast : i'.ptr fs'.disk i.blockCount.toNat = b ∨
      ¬ i.Linked ∧ i'.ptr fs'.disk i.blockCount.toNat = 0)
    (hzero : fs'.disk.block b = Vector.zeros blockSize)
    (hkind : (i.blockCount.toNat ≠ 10 ∧ new = [b] ∧ i'.indirectBlock = i.indirectBlock) ∨
      (i.blockCount.toNat = 10 ∧ ∃ c, new = [b, c] ∧ i'.indirectBlock.toNat = c)) :
    Grown fs fs' i i' 1 new := by
  have hb : b ∈ new := by
    rcases hkind with ⟨-, rfl, -⟩ | ⟨-, c, rfl, -⟩ <;> simp
  have hb0 : b ≠ 0 := by
    have := (hf.fresh b hb).1
    omega
  have hapart : ∀ x ∈ new, x ∉ i.refs fs.disk := by
    intro x hx hr
    have := (hf.fresh x hx).2.2.1
    simp [hused x hr] at this
  have hblocks := Inode.blocks_succ hcount hptr
  have hsub : ∀ x ∈ (Inode.pointer (i'.ptr fs'.disk i.blockCount.toNat)).toList, x = b := by
    intro x hx
    obtain ⟨hx, hx0⟩ := Inode.pointer_eq_some.mp (Option.mem_toList.mp hx)
    rcases hlast with hl | ⟨-, hl⟩
    · exact hx.symm.trans hl
    · exact absurd (hx.symm.trans hl) hx0
  have hmem : ∀ x ∈ i'.blocks fs'.disk, x ∈ i.blocks fs.disk ∨ x = b := by
    intro x hx
    rw [hblocks] at hx
    exact (List.mem_append.mp hx).imp_right (hsub x)
  have hnb : (i'.blocks fs'.disk).Nodup := by
    rw [hblocks]
    refine List.nodup_append.mpr ⟨(List.nodup_append.mp hp.nodup).1, Option.toList_nodup _, ?_⟩
    rintro x hx y hy rfl
    rw [hsub x hy] at hx
    exact hapart b hb (Inode.mem_refs_of_mem_blocks hx)
  have hind : i'.indirectBlock ≠ 0 → i'.indirectBlock.toNat ∉ i'.blocks fs'.disk ∧
      (i'.indirectBlock.toNat ∈ i.refs fs.disk ∨ i'.indirectBlock.toNat ∈ new) := by
    intro hi
    rcases hkind with ⟨-, rfl, heq⟩ | ⟨-, c, rfl, rfl⟩
    · rw [heq] at hi ⊢
      have hr := Inode.indirectBlock_mem_refs (d := fs.disk) hi
      refine ⟨fun hmem' => ?_, Or.inl hr⟩
      rcases hmem _ hmem' with hx | hx
      · have hn := hp.nodup
        rw [Inode.refs, if_neg hi] at hn
        exact (List.nodup_append.mp hn).2.2 _ hx _ (List.mem_singleton.mpr rfl) rfl
      · exact hapart b hb (hx ▸ hr)
    · refine ⟨fun hmem' => ?_, Or.inr (by simp)⟩
      rcases hmem _ hmem' with hx | hx
      · exact hapart _ (by simp) (Inode.mem_refs_of_mem_blocks hx)
      · have hn := hf.nodup
        simp [hx] at hn
  have hlinked : i.Linked → i'.Linked := by
    intro hl hc
    rcases hkind with ⟨hne, -, heq⟩ | ⟨-, c, rfl, hi⟩
    · rw [heq]
      exact hl (by omega)
    · intro h0
      have := (hf.fresh c (by simp)).1
      rw [h0] at hi
      simp only [UInt32.toNat_zero] at hi
      omega
  refine ⟨hf, ?_, ?_, ?_, ?_, hcount, ?_, hdirect, ?_, hptr, ?_, ?_, ?_, hlinked, ?_, ?_⟩
  · rw [hattrs]
  · rw [hattrs]
  · rw [hattrs]
  · rw [hattrs]
  · rcases hkind with ⟨hne, rfl, -⟩ | ⟨h10, c, rfl, -⟩
    · rw [Inode.growAsks, if_neg (by omega)]
      rfl
    · rw [Inode.growAsks, if_pos (by omega)]
      rfl
  · intro hc
    rcases hkind with ⟨-, -, heq⟩ | ⟨h10, -⟩
    · exact heq
    · omega
  · intro hl k hk hk'
    obtain rfl : k = i.blockCount.toNat := by omega
    rcases hlast with hlast | ⟨hnl, -⟩
    · rw [hlast]
      exact ⟨hb, hzero⟩
    · exact absurd hl hnl
  · intro x hx
    rcases Inode.mem_refs.mp hx with hx | ⟨hi, rfl⟩
    · rcases hmem x hx with hx | rfl
      · exact Or.inl (Inode.mem_refs_of_mem_blocks hx)
      · exact Or.inr hb
    · exact (hind hi).2
  · rw [Inode.refs]
    split_ifs with hi
    · simpa using hnb
    · refine List.nodup_append.mpr ⟨hnb, List.nodup_singleton _, ?_⟩
      rintro x hx y hy rfl
      rw [List.mem_singleton.mp hy] at hx
      exact (hind hi).1 hx
  · intro x hx
    obtain ⟨hc, rfl⟩ := Inode.mem_slack.mp hx
    rcases hkind with ⟨hne, -, heq⟩ | ⟨-, c, rfl, hi⟩
    · exact Or.inl (Inode.mem_slack.mpr ⟨by omega, by rw [heq]⟩)
    · exact Or.inr (by simp [hi])
  · intro hs
    have hl : i.Linked := fun hc => hs.mpr hc
    have hblocks' : i'.blocks fs'.disk = i.blocks fs.disk ++ [b] := by
      rcases hlast with hlast | ⟨hnl, -⟩
      · rw [hblocks, hlast, Inode.pointer, if_neg hb0]
        rfl
      · exact absurd hl hnl
    rcases hkind with ⟨hne, rfl, heq⟩ | ⟨h10, c, rfl, hi⟩
    · refine ⟨?_, ?_⟩
      · rw [Inode.Shaped, heq, hcount]
        exact hs.trans (by omega)
      · rw [Inode.refs, Inode.refs, hblocks', heq, List.append_assoc, List.append_assoc]
        exact List.Perm.append_left _ List.perm_append_comm
    · have hi' : i'.indirectBlock ≠ 0 := hlinked hl (by omega)
      have hi0 : i.indirectBlock = 0 := by
        by_contra h0
        have := hs.mp h0
        omega
      refine ⟨⟨fun _ => by omega, fun _ => hi'⟩, ?_⟩
      rw [Inode.refs, Inode.refs, hblocks', if_neg hi', if_pos hi0, hi]
      simp

end Grown

section GrowStep

variable {fs fs₁ : Fs} {i : Inode} {b : ℕ}

private theorem toNat_blockCount_succ (h : i.blockCount.toNat < 20) :
    (i.blockCount + 1).toNat = i.blockCount.toNat + 1 := by
  rw [UInt16.toNat_add]
  exact Nat.mod_eq_of_lt (by show i.blockCount.toNat + 1 < 2 ^ 16; omega)

/-- A new block at a direct pointer. -/
private theorem grown_direct (hp : Placed fs i)
    (hused : ∀ b ∈ i.refs fs.disk, fs.disk.bit b = true) (hcount : i.blockCount.toNat < 10)
    (hf : Footprint fs fs₁ [] [] [b] []) :
    Grown fs ⟨fs₁.disk.writeBlock b (Vector.zeros blockSize), fs₁.sb⟩ i
      { i with
        directBlocks := i.directBlocks.setIfInBounds i.blockCount.toNat (.ofNat b)
        blockCount := i.blockCount + 1 } 1 [b] := by
  obtain ⟨hlow, hlt, -, hr⟩ := hf.fresh b (by simp)
  have hw := Footprint.writeBlock hf.sized hf.layout (Vector.zeros blockSize)
    (Or.inl (by omega)) hlt hr
  have hfoot := (hf.trans_alloc (hw.mono (List.nil_subset _) (List.Subset.refl _)) (by simp)).mono
    (List.Subset.refl _) (List.nil_subset i.slack)
  refine Grown.step hp hused hfoot rfl (toNat_blockCount_succ (by omega)) (fun k hk => ?_)
    (fun k hk => ?_) (Or.inl ?_) (Disk.block_writeBlock_self _ _ _)
    (Or.inl ⟨by omega, rfl, rfl⟩)
  · have hset := Inode.direct_set (i := i) hcount b k
    rwa [if_neg (by omega)] at hset
  · rw [Inode.ptr_set_direct hcount (by omega) (by omega) rfl, if_neg (by omega)]
  · rw [Inode.ptr_set_direct (i := i) (d := fs.disk) hcount (by omega) hcount rfl, if_pos rfl]

/-- The eleventh block, which comes with the indirect block `c`. -/
private theorem grown_first {fs₂ : Fs} {c : ℕ} (hp : Placed fs i)
    (hused : ∀ b ∈ i.refs fs.disk, fs.disk.bit b = true) (hcount : i.blockCount.toNat = 10)
    (hf : Footprint fs fs₁ [] [] [b] []) (hf₂ : Footprint fs₁ fs₂ [] [] [c] []) :
    Grown fs ⟨(fs₂.disk.writeBlock c
        ((Vector.zeros blockSize).copyAt 0 2 (Vector.leByte (b % 2 ^ 16)))).writeBlock b
          (Vector.zeros blockSize), fs₂.sb⟩ i
      { i with indirectBlock := .ofNat c, blockCount := i.blockCount + 1 } 1 [b, c] := by
  obtain ⟨hlow, hlt, -, hr⟩ := hf.fresh b (by simp)
  obtain ⟨hlow', hlt', -, hr'⟩ := hf₂.fresh c (by simp)
  have hw₁ := Footprint.writeBlock hf₂.sized hf₂.layout
    ((Vector.zeros blockSize).copyAt 0 2 (Vector.leByte (b % 2 ^ 16))) (Or.inl (by omega)) hlt' hr'
  have hw₂ := Footprint.writeBlock hw₁.sized hw₁.layout (Vector.zeros blockSize)
    (Or.inl (by omega)) hlt hr
  have hfoot := (((hf.trans_alloc hf₂ (by simp)).trans_alloc
    (hw₁.mono (List.nil_subset _) (List.Subset.refl _)) (by simp)).trans_alloc
    (hw₂.mono (List.nil_subset _) (List.Subset.refl _)) (by simp)).mono
    (List.Subset.refl _) (List.nil_subset i.slack)
  have hcb : c ≠ b := by
    rintro rfl
    simpa using hfoot.nodup
  have hc : (UInt32.ofNat c).toNat = c := by
    rw [UInt32.toNat_ofNat', Nat.mod_eq_of_lt (by omega)]
  have hc0 : UInt32.ofNat c ≠ 0 := by
    intro h
    rw [h] at hc
    simp only [UInt32.toNat_zero] at hc
    omega
  refine Grown.step hp hused hfoot rfl (toNat_blockCount_succ (by omega)) (fun k hk => rfl)
    (fun k hk => ?_) (Or.inl ?_) (Disk.block_writeBlock_self _ _ _)
    (Or.inr ⟨hcount, c, rfl, hc⟩)
  · rw [Inode.ptr, Inode.ptr, if_pos (by omega), if_pos (by omega)]
    rfl
  · rw [hcount, Inode.ptr, if_neg (by decide), if_pos ⟨hc0, by decide⟩]
    dsimp only
    rw [hc, Disk.block_writeBlock_of_ne _ _ hcb, Disk.block_writeBlock_self,
      Vector.readLE_copyAt_self _ _ (by decide)]
    omega

/-- A further block, entered in the indirect block. -/
private theorem grown_next (hp : Placed fs i)
    (hused : ∀ b ∈ i.refs fs.disk, fs.disk.bit b = true) (hcount : 10 < i.blockCount.toNat)
    (hbound : i.blockCount.toNat < 20) (hf : Footprint fs fs₁ [] [] [b] []) :
    Grown fs ⟨(fs₁.disk.writeBlock i.indirectBlock.toNat
        ((fs₁.disk.block i.indirectBlock.toNat).copyAt ((i.blockCount.toNat - 10) * 2) 2
          (Vector.leByte (b % 2 ^ 16)))).writeBlock b (Vector.zeros blockSize), fs₁.sb⟩ i
      { i with blockCount := i.blockCount + 1 } 1 [b] := by
  obtain ⟨hlow, hlt, hfree, hr⟩ := hf.fresh b (by simp)
  let c := i.indirectBlock.toNat
  have hc : (6 ≤ c ∨ c = 0) ∧ c < 20480 ∧ ¬ IsRecordBlock c ∧ c ≠ b := by
    by_cases hi : i.indirectBlock = 0
    · have hc0 : c = 0 := by
        simp only [c, hi]
        rfl
      refine ⟨Or.inr hc0, by omega, ?_, by omega⟩
      rintro ⟨n, -, hn⟩
      have := six_le_recordBlock n
      omega
    · have hmem := Inode.indirectBlock_mem_refs (d := fs.disk) hi
      obtain ⟨hlow', hlt', hr'⟩ := hp.range _ hmem
      refine ⟨Or.inl (by omega), hlt', hr', fun heq => ?_⟩
      simp only [c] at heq
      rw [← heq, hused _ hmem] at hfree
      exact Bool.noConfusion hfree
  obtain ⟨hc6, hclt, hcr, hcb⟩ := hc
  have hold : i.indirectBlock ≠ 0 → fs₁.disk.block c = fs.disk.block c := by
    intro hi
    refine hf.block c ?_ hcr (by simp) (by simpa using hcb)
    rcases hc6 with h | h
    · exact h
    · exact absurd h (Inode.toNat_indirectBlock_ne hi)
  have hw₁ := Footprint.writeBlock hf.sized hf.layout
    ((fs₁.disk.block c).copyAt ((i.blockCount.toNat - 10) * 2) 2
      (Vector.leByte (b % 2 ^ 16))) hc6 hclt hcr
  have hw₂ := Footprint.writeBlock hw₁.sized hw₁.layout (Vector.zeros blockSize)
    (Or.inl (by omega)) hlt hr
  have hslack : i.slack = [c] := if_pos hcount
  have hfoot := ((hf.mono (List.Subset.refl _) (List.nil_subset i.slack)).trans_alloc
    (hw₁.mono (List.nil_subset _) (List.Subset.refl _))
    (by simp [hslack])).trans_alloc
    (hw₂.mono (List.nil_subset _) (List.Subset.refl _)) (by simp)
  -- the entries before the new one are where they were
  have hentry : ∀ k, 10 ≤ k → k < i.blockCount.toNat →
      ((fs₁.disk.block c).copyAt ((i.blockCount.toNat - 10) * 2) 2
        (Vector.leByte (b % 2 ^ 16))).readLE ((k - 10) * 2) 2 =
        (fs₁.disk.block c).readLE ((k - 10) * 2) 2 := by
    intro k _ hk
    exact Vector.readLE_copyAt_of_disjoint _ _ (Or.inr (by omega))
  refine Grown.step hp hused hfoot rfl (toNat_blockCount_succ hbound) (fun k hk => rfl)
    (fun k hk => ?_) ?_ (Disk.block_writeBlock_self _ _ _) (Or.inl ⟨by omega, rfl, rfl⟩)
  · rw [Inode.ptr, Inode.ptr]
    split_ifs with hk10 hi
    · rfl
    · dsimp only
      rw [Disk.block_writeBlock_of_ne _ _ hcb, Disk.block_writeBlock_self,
        hentry k (by omega) hk, hold hi.1]
    · rfl
  · by_cases hi : i.indirectBlock = 0
    · refine Or.inr ⟨fun hl => hl hcount hi, ?_⟩
      rw [Inode.ptr, if_neg (by omega), if_neg (fun h => h.1 hi)]
    · refine Or.inl ?_
      rw [Inode.ptr, if_neg (by omega), if_pos ⟨hi, by omega⟩]
      dsimp only
      rw [Disk.block_writeBlock_of_ne _ _ hcb, Disk.block_writeBlock_self,
        Vector.readLE_copyAt_self _ _ (by simp only [blockSize]; omega)]
      omega

/-- `allocate_block` has nothing to give. -/
def Fs.Refuses (fs : Fs) : Prop :=
  allocateBlock fs.disk fs.sb = some (none, fs.disk, fs.sb)

theorem refuses_of_allocateBlock {fs : Fs} (hd : fs.disk.Sized) {d' : Disk} {sb' : SuperBlock}
    (h : allocateBlock fs.disk fs.sb = some (none, d', sb')) :
    d' = fs.disk ∧ sb' = fs.sb ∧ fs.Refuses := by
  obtain ⟨rfl, rfl⟩ := allocateBlock_eq_none hd h
  exact ⟨rfl, rfl, h⟩

/-- One turn of the growing loop: no block is left for the data, none is left for the indirect
block, or the file has grown by one block. -/
theorem growStep_outcome (hp : Placed fs i) (hused : ∀ b ∈ i.refs fs.disk, fs.disk.bit b = true)
    (hlow : LowUsed fs.disk) (hbound : i.blockCount.toNat < 20) {n : ℕ}
    (hroom : fs.disk.Roomy (i.growAsks (n + 1))) {g : Fs.Growth} {d' : Disk} {sb' : SuperBlock}
    (h : Fs.growStep fs.disk fs.sb i = some (g, d', sb')) :
    (g = .full ∧ d' = fs.disk ∧ sb' = fs.sb ∧ fs.Refuses) ∨
      (g = .stuck ∧ i.blockCount.toNat = 10 ∧
        (∃ b, Footprint fs ⟨d', sb'⟩ [] [] [b] []) ∧ Fs.Refuses ⟨d', sb'⟩) ∨
      ∃ i' new, g = .grown i' ∧ Grown fs ⟨d', sb'⟩ i i' 1 new ∧ d'.Roomy (i'.growAsks n) := by
  obtain ⟨⟨newBlock, d₁, sb₁⟩, halloc, h⟩ := Option.bind_eq_some_iff.mp h
  cases newBlock with
  | none =>
    obtain ⟨rfl, rfl, hr⟩ := refuses_of_allocateBlock hp.sized halloc
    simp only [Option.some.injEq, Prod.mk.injEq] at h
    exact Or.inl ⟨h.1.symm, h.2.1.symm, h.2.2.symm, hr⟩
  | some b =>
    right
    obtain ⟨⟨i₁, d₂, sb₂⟩, hattach, h⟩ := Option.bind_eq_some_iff.mp h
    have hasks : i.growAsks (n + 1) = i.growAsks (n + 1) - 1 + 1 := by
      unfold Inode.growAsks
      omega
    rw [hasks] at hroom
    obtain ⟨-, hf, hroom₁⟩ := Footprint.of_allocateBlock hp.sized hp.layout hlow hroom halloc
    have hb31 := (hf.fresh b (by simp)).1
    have hsucc := toNat_blockCount_succ hbound
    unfold Fs.attachBlock at hattach
    simp only [directBlockCount] at hattach
    split_ifs at hattach with h10 h10' hover
    · simp only [Option.some.injEq, Prod.mk.injEq] at hattach
      obtain ⟨rfl, rfl, rfl⟩ := hattach
      simp only [Option.some.injEq, Prod.mk.injEq] at h
      obtain ⟨rfl, rfl, rfl⟩ := h
      refine Or.inr ⟨_, _, rfl, grown_direct hp hused h10 hf, ?_⟩
      refine (hroom₁.mono ?_).writeBlock _ (Or.inl (by omega))
      simp only [Inode.growAsks, hsucc]
      split_ifs <;> omega
    · obtain ⟨⟨indirect, d₃, sb₃⟩, halloc', hc⟩ := Option.bind_eq_some_iff.mp hattach
      cases indirect with
      | none =>
        obtain ⟨rfl, rfl, hr⟩ := @refuses_of_allocateBlock ⟨d₁, sb₁⟩ hf.sized _ _ halloc'
        simp only [Option.some.injEq, Prod.mk.injEq] at hc
        obtain ⟨rfl, rfl, rfl⟩ := hc
        simp only [Option.some.injEq, Prod.mk.injEq] at h
        obtain ⟨rfl, rfl, rfl⟩ := h
        exact Or.inl ⟨rfl, h10', ⟨b, hf⟩, hr⟩
      | some c =>
        simp only [Option.some.injEq, Prod.mk.injEq] at hc
        obtain ⟨rfl, rfl, rfl⟩ := hc
        simp only [Option.some.injEq, Prod.mk.injEq] at h
        obtain ⟨rfl, rfl, rfl⟩ := h
        have hasks' : i.growAsks (n + 1) - 1 = i.growAsks (n + 1) - 2 + 1 := by
          unfold Inode.growAsks
          rw [if_pos (by omega)]
          omega
        rw [hasks'] at hroom₁
        obtain ⟨-, hf₂, hroom₂⟩ := Footprint.of_allocateBlock hf.sized hf.layout
          (hf.lowUsed hlow) hroom₁ halloc'
        have hc31 := (hf₂.fresh c (by simp)).1
        refine Or.inr ⟨_, _, rfl, grown_first hp hused h10' hf hf₂, ?_⟩
        refine ((hroom₂.mono ?_).writeBlock _ (Or.inl (by omega))).writeBlock _ (Or.inl (by omega))
        simp only [Inode.growAsks, hsucc]
        split_ifs <;> omega
    · simp only [blockSize] at hover
      omega
    · obtain ⟨buf, hread, hattach⟩ := Option.bind_eq_some_iff.mp hattach
      obtain ⟨-, rfl⟩ := hf.sized.readBlock_eq_some hread
      simp only [Option.some.injEq, Prod.mk.injEq] at hattach
      obtain ⟨rfl, rfl, rfl⟩ := hattach
      simp only [Option.some.injEq, Prod.mk.injEq] at h
      obtain ⟨rfl, rfl, rfl⟩ := h
      have hg := grown_next hp hused (by omega) hbound hf
      refine Or.inr ⟨_, _, rfl, hg, ?_⟩
      have hbits : ∀ c < 20480, ((d₁.writeBlock i.indirectBlock.toNat
          ((d₁.block i.indirectBlock.toNat).copyAt ((i.blockCount.toNat - 10) * 2) 2
            (Vector.leByte (b % 2 ^ 16)))).writeBlock b (Vector.zeros blockSize)).bit c =
          d₁.bit c := by
        intro c hc
        have h₁ := hg.footprint.bit c hc
        have h₂ := hf.bit c hc
        exact h₁.trans h₂.symm
      refine (hroom₁.mono ?_).congr hbits
      simp only [Inode.growAsks, hsucc]
      split_ifs <;> omega

/-- What the growing loop has done when it ends. -/
inductive GrowthOutcome (fs : Fs) (i : Inode) (n : ℕ) : Fs.Growth → Fs → Prop
  | grown {fs' i' new} : Grown fs fs' i i' n new → GrowthOutcome fs i n (.grown i') fs'
  | full {fs' i' m new} : m < n → Grown fs fs' i i' m new → fs'.Refuses →
      GrowthOutcome fs i n .full fs'
  | stuck {fs₁ fs' i' m new b} : m < n → Grown fs fs₁ i i' m new → i'.blockCount.toNat = 10 →
      Footprint fs₁ fs' [] [] [b] [] → fs'.Refuses → GrowthOutcome fs i n .stuck fs'

/-- A turn that succeeds, then the rest of the loop. -/
theorem GrowthOutcome.cons {fs fs₁ fs' : Fs} {i i₁ : Inode} {n : ℕ} {new : List ℕ} {g : Fs.Growth}
    (hp : Placed fs i) (hused : ∀ b ∈ i.refs fs.disk, fs.disk.bit b = true)
    (hg : Grown fs fs₁ i i₁ 1 new) (h : GrowthOutcome fs₁ i₁ n g fs') :
    GrowthOutcome fs i (n + 1) g fs' := by
  cases h with
  | grown h => exact .grown (Nat.add_comm 1 n ▸ hg.trans h hp hused)
  | full hm h hr => exact .full (by omega) (hg.trans h hp hused) hr
  | stuck hm h h10 hf hr => exact .stuck (by omega) (hg.trans h hp hused) h10 hf hr

theorem growLoop_outcome {n : ℕ} : ∀ {fs : Fs} {i : Inode}, Placed fs i →
    (∀ b ∈ i.refs fs.disk, fs.disk.bit b = true) → LowUsed fs.disk →
    (0 < n → i.blockCount.toNat + n ≤ 20) → fs.disk.Roomy (i.growAsks n) →
    ∀ {g : Fs.Growth} {d' : Disk} {sb' : SuperBlock},
    Fs.growLoop n fs.disk fs.sb i = some (g, d', sb') → GrowthOutcome fs i n g ⟨d', sb'⟩ := by
  induction n with
  | zero =>
    intro fs i hp _ _ _ _ g d' sb' h
    simp only [Fs.growLoop, Option.some.injEq, Prod.mk.injEq] at h
    obtain ⟨rfl, rfl, rfl⟩ := h
    exact .grown (.refl hp)
  | succ n ih =>
    intro fs i hp hused hlow hbound hroom g d' sb' h
    obtain ⟨⟨g₁, d₁, sb₁⟩, hstep, h⟩ := Option.bind_eq_some_iff.mp h
    rcases growStep_outcome hp hused hlow (by omega) hroom hstep with
      ⟨rfl, rfl, rfl, hr⟩ | ⟨rfl, h10, ⟨b, hf⟩, hr⟩ | ⟨i₁, new, rfl, hg, hroom₁⟩
    · simp only [Option.some.injEq, Prod.mk.injEq] at h
      obtain ⟨rfl, rfl, rfl⟩ := h
      exact .full (by omega) (.refl hp) hr
    · simp only [Option.some.injEq, Prod.mk.injEq] at h
      obtain ⟨rfl, rfl, rfl⟩ := h
      exact .stuck (by omega) (.refl hp) h10 hf hr
    · have hcount := hg.blockCount
      have hrest := @ih ⟨d₁, sb₁⟩ i₁ (hg.placed hp) (hg.used hp hused)
        (hg.footprint.lowUsed hlow) (by omega) hroom₁ g d' sb' h
      exact .cons hp hused hg hrest

end GrowStep

end SimpleFS
