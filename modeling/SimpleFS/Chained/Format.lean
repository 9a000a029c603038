import SimpleFS.Chained.Requests

/-! The image as `format_disk` leaves it: all blocks but two in the free list, in order. -/
namespace SimpleFS.Chained

/-- Blocks linked in order, the last one to nothing. -/
theorem chain_range' {next : ℕ → ℕ} {a n : ℕ} (ha : 0 < a)
    (h : ∀ i, a ≤ i → i < a + n → next i = if i + 1 = a + n then 0 else i + 1) (hn : 0 < n) :
    Chain next 0 a (List.range' a n) := by
  induction n generalizing a with
  | zero => omega
  | succ n ih =>
    rw [List.range'_succ]
    refine .cons (by omega) ?_
    rw [h a le_rfl (by omega)]
    by_cases hz : n = 0
    · subst hz
      rw [if_pos rfl]
      exact .nil
    · rw [if_neg (by omega)]
      refine ih (by omega) (fun i hi hlt => ?_) (by omega)
      rw [h i (by omega) (by omega)]
      congr 1
      simp only [eq_iff_iff]
      omega

theorem block_foldl_writeBlock (f : ℕ → Block) (d : Disk) (a n b : ℕ) :
    ((List.range' a n).foldl (fun d i => d.writeBlock i (f i)) d).block b =
      if a ≤ b ∧ b < a + n then f b else d.block b := by
  induction n with
  | zero =>
    rw [if_neg (by omega)]
    rfl
  | succ n ih =>
    rw [List.range'_concat, List.foldl_append, List.foldl_cons, List.foldl_nil,
      Disk.block_writeBlock, ih, Nat.one_mul]
    by_cases hb : b = a + n
    · rw [if_pos hb, if_pos (by omega), hb]
    · rw [if_neg hb]
      congr 1
      simp only [eq_iff_iff]
      omega

theorem block_formatFree (d : Disk) {b : ℕ} (h1 : 1 ≤ b) (h2 : b < maxBlocks) :
    (formatFree d).block b = setNextBlockNo (Vector.zeros blockSize)
      (if b = maxBlocks - 1 then 0 else b + 1) := by
  unfold formatFree
  rw [block_foldl_writeBlock, if_pos]
  simp only [maxBlocks, diskSize, blockSize] at h2 ⊢
  omega

/-- A freshly formatted image: the root directory in block 1, and all other blocks free. -/
structure Formatted (s : State) : Prop where
  root : s.sb.rootDirBlock = 1
  first : s.sb.firstFreeBlock = 2
  free : s.sb.freeBlocks.toNat = 20478
  next : ∀ b, 2 ≤ b → b < maxBlocks → nextOf s.disk b = if b = maxBlocks - 1 then 0 else b + 1
  stopped : nextOf s.disk 0 = 0
  dir : s.disk.block 1 = setNextBlockNo (Vector.zeros blockSize) 0

theorem formatDisk_formatted {d : Disk} {s : State} (h : formatDisk d = pure s) : Formatted s := by
  unfold formatDisk at h
  obtain ⟨⟨root, s₁⟩, ha, h⟩ := Call.bind_eq_pure.mp h
  have hpos : UInt32.ofNat (maxBlocks - 1) ≠ 0 := by decide
  obtain ⟨rfl, rfl⟩ := allocateBlock_eq_pure hpos ha
  simp only [Call.pure_inj] at h
  obtain rfl := h
  have hsame : ∀ b, 2 ≤ b → b < maxBlocks → nextBlockNo ((formatFree d).block b) =
      if b = maxBlocks - 1 then 0 else b + 1 := by
    intro b h1 h2
    rw [block_formatFree d (by omega) h2, nextBlockNo_setNextBlockNo]
    simp only [maxBlocks, diskSize, blockSize] at h2 ⊢
    split_ifs <;> omega
  have hnext : nextOf (formatFree d) 1 = 2 := by
    rw [nextOf, block_formatFree d le_rfl (by decide), if_neg (by decide),
      nextBlockNo_setNextBlockNo _ (by decide)]
  exact {
    root := rfl
    first := by
      simp only [State.take_sb, SuperBlock.take]
      exact hnext
    free := by
      simp only [State.take_sb, SuperBlock.take]
      rfl
    next := by
      intro b h1 h2
      rw [nextOf, Disk.block_writeBlock_of_ne _ _ (by omega),
        Disk.block_writeBlock_of_ne _ _ (by omega), State.block_take _ (by omega), hsame b h1 h2]
    stopped := by
      rw [nextOf, Disk.block_writeBlock_self, nextBlockNo_copyTo,
        nextBlockNo_setNextBlockNo _ (by decide)]
    dir := by
      rw [Disk.block_writeBlock_of_ne _ _ (by decide), Disk.block_writeBlock_self] }

/-- The root directory has no file yet. -/
theorem Formatted.not_used {s : State} (h : Formatted s) (i : ℕ) :
    ¬ (dirAt (s.disk.block 1) i).Used := by
  unfold DirEntry.Used
  rw [not_not, h.dir, dirAt, Vector.byteAt_slice _ _ (by decide), setNextBlockNo,
    Vector.byteAt_copyAt]
  split_ifs
  · simp [Vector.leByte]
  · exact Vector.byteAt_zeros _

theorem Formatted.sound {s : State} (h : Formatted s) : Sound s := by
  let held : Owner → List ℕ := fun
    | .free => List.range' 2 20478
    | .dir => [1]
    | _ => []
  have hroot : nextOf s.disk 1 = 0 := by
    rw [nextOf, h.dir, nextBlockNo_setNextBlockNo _ (by decide)]
  refine ⟨held, ?_⟩
  exact {
    free := by
      rw [h.first]
      refine chain_range' (by decide) (fun i hi hlt => ?_) (by decide)
      have hlast : i = maxBlocks - 1 ↔ i + 1 = 2 + 20478 := by
        simp only [maxBlocks, diskSize, blockSize]
        omega
      rw [h.next i hi (by simp only [maxBlocks, diskSize, blockSize]; omega)]
      simp only [hlast]
    dir := by
      rw [h.root]
      refine .cons (by decide) ?_
      rw [hroot]
      exact .nil
    file := by
      intro b hb i _ _ hused
      rw [List.mem_singleton.mp hb] at hused
      exact absurd hused (h.not_used i)
    exclusive := by
      constructor
      · intro o
        cases o with
        | free => exact List.nodup_range'
        | dir => exact List.nodup_singleton _
        | file => exact List.nodup_nil
        | hand => exact List.nodup_nil
      · intro o p hop b hb hc
        cases o <;> cases p <;> simp [held] at hb hc hop <;> omega
    counted := by
      rw [h.free]
      exact List.length_range'
    inside := by
      intro o b hb
      cases o <;> simp [held, maxBlocks, diskSize, blockSize] at hb ⊢ <;> omega
    stopped := h.stopped
    ended := by
      intro b hb i _
      rw [List.mem_singleton.mp hb]
      exact DirEntry.ended_of_not_used (h.not_used i) }

end SimpleFS.Chained
