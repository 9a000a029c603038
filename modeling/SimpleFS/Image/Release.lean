import SimpleFS.Image.DirUpdates

/-! The freeing of the blocks of an inode. -/
namespace SimpleFS
open Bitmap

/-- One turn of the freeing loop, when the block map is where it was. -/
private theorem freeStep {fs : Fs} {i : Inode} (hd : fs.disk.Sized) (hl : Layout fs.sb)
    (hi : i.indirectBlock ≠ 0 → i.indirectBlock.toNat < 20480) {k : ℕ}
    (hb : ∀ b, Inode.pointer (i.ptr fs.disk k) = some b → b < 20480 ∧ fs.disk.bit b = true) :
    ∃ fs' : Fs, Fs.freeDataBlock i (fs.disk, fs.sb) k = some (fs'.disk, fs'.sb) ∧
      Footprint fs fs' [] [] [] (Inode.pointer (i.ptr fs.disk k)).toList := by
  rw [Fs.freeDataBlock, Inode.getBlock_eq hd hi, Option.bind_eq_bind, Option.bind_some]
  cases hp : Inode.pointer (i.ptr fs.disk k) with
  | none => exact ⟨fs, rfl, .refl hd hl⟩
  | some b =>
    obtain ⟨hlt, hbit⟩ := hb b hp
    obtain ⟨d', hfree, hu⟩ := markFree_spec hd fs.sb hlt
    exact ⟨⟨d', _⟩, hfree, .free hl hlt hbit rfl hu⟩

private theorem freeLoop {i : Inode} (ks : List ℕ) {fs : Fs} (hd : fs.disk.Sized)
    (hl : Layout fs.sb)
    (hi : i.indirectBlock ≠ 0 → 6 ≤ i.indirectBlock.toNat ∧ i.indirectBlock.toNat < 20480 ∧
      ¬ IsRecordBlock i.indirectBlock.toNat)
    (hb : ∀ b ∈ ks.filterMap fun k => Inode.pointer (i.ptr fs.disk k),
      b < 20480 ∧ fs.disk.bit b = true)
    (hn : (ks.filterMap fun k => Inode.pointer (i.ptr fs.disk k)).Nodup) :
    ∃ fs' : Fs, ks.foldlM (Fs.freeDataBlock i) (fs.disk, fs.sb) = some (fs'.disk, fs'.sb) ∧
      Footprint fs fs' [] [] [] (ks.filterMap fun k => Inode.pointer (i.ptr fs.disk k)) := by
  induction ks generalizing fs with
  | nil => exact ⟨fs, rfl, .refl hd hl⟩
  | cons k ks ih =>
    have hcons : (k :: ks).filterMap (fun k => Inode.pointer (i.ptr fs.disk k)) =
        (Inode.pointer (i.ptr fs.disk k)).toList ++
          ks.filterMap fun k => Inode.pointer (i.ptr fs.disk k) := by
      rw [List.filterMap_cons]
      cases Inode.pointer (i.ptr fs.disk k) <;> rfl
    rw [hcons] at hb hn ⊢
    have hfirst : ∀ b, Inode.pointer (i.ptr fs.disk k) = some b →
        b < 20480 ∧ fs.disk.bit b = true :=
      fun b h => hb b (List.mem_append_left _ (by simp [h]))
    obtain ⟨fs₁, hstep, hf₁⟩ := freeStep hd hl (fun h => (hi h).2.1) hfirst
    have hptr : (fun k => Inode.pointer (i.ptr fs₁.disk k)) =
        fun k => Inode.pointer (i.ptr fs.disk k) := by
      funext k
      rw [Inode.ptr_congr fun h => hf₁.block _ (hi h).1 (hi h).2.2 (by simp) (by simp)]
    obtain ⟨fs₂, hrest, hf₂⟩ := @ih fs₁ hf₁.sized hf₁.layout
      (by
        rw [hptr]
        intro b hmem
        obtain ⟨hlt, hbit⟩ := hb b (List.mem_append_right _ hmem)
        refine ⟨hlt, ?_⟩
        have hne : b ∉ (Inode.pointer (i.ptr fs.disk k)).toList :=
          fun h => (List.nodup_append.mp hn).2.2 b h b hmem rfl
        rw [hf₁.bit b hlt, hbit]
        simpa using hne)
      (by
        rw [hptr]
        exact (List.nodup_append.mp hn).2.1)
    rw [hptr] at hf₂
    refine ⟨fs₂, ?_, hf₁.trans_free hf₂ (List.Subset.refl _)⟩
    rw [List.foldlM_cons, hstep]
    exact hrest

/-- `unlink` and `rmdir` free every data block of the inode, once. -/
theorem Placed.freeDataBlocks {fs : Fs} {i : Inode} (hp : Placed fs i)
    (hused : ∀ b ∈ i.blocks fs.disk, fs.disk.bit b = true) :
    ∃ fs' : Fs, Fs.freeDataBlocks fs.disk fs.sb i = some (fs'.disk, fs'.sb) ∧
      Footprint fs fs' [] [] [] (i.blocks fs.disk) := by
  refine freeLoop _ hp.sized hp.layout (fun hi => ?_) (fun b hb => ?_)
    (List.nodup_append.mp hp.nodup).1
  · obtain ⟨hlow, hlt, hr⟩ := hp.range _ (Inode.indirectBlock_mem_refs hi)
    exact ⟨by omega, hlt, hr⟩
  · exact ⟨(hp.range b (Inode.mem_refs_of_mem_blocks hb)).2.1, hused b hb⟩

/-- `unlink` then frees the indirect block, and so all that the inode refers to. -/
theorem Placed.freeRefs {fs : Fs} {i : Inode} (hp : Placed fs i)
    (hused : ∀ b ∈ i.refs fs.disk, fs.disk.bit b = true) {fs₁ : Fs}
    (hf : Footprint fs fs₁ [] [] [] (i.blocks fs.disk)) :
    ∃ fs' : Fs, Fs.freeIndirectBlock fs₁.disk fs₁.sb i = some (fs'.disk, fs'.sb) ∧
      Footprint fs fs' [] [] [] (i.refs fs.disk) := by
  by_cases hi : i.indirectBlock = 0
  · refine ⟨fs₁, if_neg (not_not.mpr hi), ?_⟩
    rwa [Inode.refs, if_pos hi, List.append_nil]
  · have hmem : i.indirectBlock.toNat ∈ i.refs fs.disk := Inode.indirectBlock_mem_refs hi
    have hlt := (hp.range _ hmem).2.1
    have hnot : i.indirectBlock.toNat ∉ i.blocks fs.disk := by
      intro h
      have hn := hp.nodup
      rw [Inode.refs, if_neg hi] at hn
      exact (List.nodup_append.mp hn).2.2 _ h _ (List.mem_singleton.mpr rfl) rfl
    have hbit : fs₁.disk.bit i.indirectBlock.toNat = true := by
      rw [hf.bit _ hlt, hused _ hmem]
      simpa using hnot
    obtain ⟨d', hfree, hu⟩ := markFree_spec hf.sized fs₁.sb hlt
    refine ⟨⟨d', _⟩, by rw [Fs.freeIndirectBlock, if_pos hi, hfree], ?_⟩
    rw [Inode.refs, if_neg hi]
    exact hf.trans_free (.free hf.layout hlt hbit rfl hu) (List.Subset.refl _)

end SimpleFS
