import SimpleFS.Chained.Format

/-! The first file on a formatted image and the first byte written to it, run from the start. -/
namespace SimpleFS.Chained

theorem State.sized_take {s : State} (h : s.disk.Sized) : s.take.disk.Sized := by
  unfold take
  exact h.writeBlock (by decide) _

theorem allocateBlock_of_sized {s : State} (h : s.disk.Sized) (h0 : s.sb.freeBlocks ≠ 0)
    (hf : s.sb.firstFreeBlock < 20480) :
    allocateBlock s = pure (s.sb.firstFreeBlock, s.take) := by
  unfold allocateBlock
  simp only [if_neg h0, readBlock_of_sized h hf, pure_bind]
  unfold State.take SuperBlock.take nextOf
  rfl

theorem sized_formatFree {d : Disk} (h : d.Sized) : (formatFree d).Sized := by
  unfold formatFree
  have hlt : ∀ i ∈ List.range' 1 (maxBlocks - 1), i < 20480 := by
    intro i hi
    have hlt := (List.mem_range'_1.mp hi).2
    simp only [maxBlocks, diskSize, blockSize] at hlt
    omega
  revert hlt
  generalize List.range' 1 (maxBlocks - 1) = l
  intro hlt
  induction l generalizing d with
  | nil => exact h
  | cons i l ih =>
    exact ih (h.writeBlock (hlt i List.mem_cons_self) _) fun j hj =>
      hlt j (List.mem_cons_of_mem _ hj)

theorem exists_formatDisk {d : Disk} (h : d.Sized) :
    ∃ s, formatDisk d = pure s ∧ s.disk.Sized := by
  have hpos : UInt32.ofNat (maxBlocks - 1) ≠ 0 := by decide
  obtain ⟨s, hs⟩ : ∃ s : State,
    s = ⟨⟨1, 0, .ofNat maxBlocks, .ofNat (maxBlocks - 1), magic⟩, formatFree d⟩ := ⟨_, rfl⟩
  have hdisk : s.disk = formatFree d := by rw [hs]
  have hsized : s.disk.Sized := by
    rw [hdisk]
    exact sized_formatFree h
  have hfirst : s.sb.firstFreeBlock = 1 := by rw [hs]
  have ha := allocateBlock_of_sized hsized (by rw [hs]; exact hpos) (by rw [hfirst]; decide)
  unfold formatDisk
  simp only [← hs, ha, hfirst, pure_bind]
  exact ⟨_, rfl, ((State.sized_take hsized).writeBlock (by decide) _).writeBlock (by decide) _⟩

/-- A name as `simplefs_create` accepts it. -/
structure Short (path : Path) : Prop where
  not_root : path.bytes ≠ [0x2F]
  length_le : path.name.length ≤ filenameLen

theorem Path.zero_not_mem_name (path : Path) : 0 ∉ path.name := by
  intro h
  rw [Path.name, List.mem_reverse] at h
  exact path.noNul (List.mem_reverse.mp ((List.takeWhile_sublist _).subset h))

theorem DirEntry.name_setName (e : DirEntry) {path : Path} (h : Short path) (now : Int64) :
    (((((e.setName path.name).setFirstBlock 0).setBlockCount 0).setFileSize 0).setMtime now).name =
      path.name := by
  have hlen := h.length_le
  simp only [filenameLen] at hlen
  have hbyte : ∀ k ≤ 10, (((((e.setName path.name).setFirstBlock 0).setBlockCount 0).setFileSize
      0).setMtime now).bytes.byteAt k = path.name.getD k 0 := by
    intro k hk
    rw [setMtime, Vector.byteAt_copyAt, if_neg (by omega), setFileSize, Vector.byteAt_copyAt,
      if_neg (by omega), setBlockCount, Vector.byteAt_copyAt, if_neg (by omega), setFirstBlock,
      Vector.byteAt_copyAt]
    split_ifs with h10
    · rw [List.getD_eq_getElem?_getD, List.getElem?_eq_none (by omega)]
      simp [Vector.leByte]
    · have hlt : k < 10 := by
        simp only [dirEntrySize] at h10
        omega
      rw [setName, Vector.byteAt_copyAt, if_pos ⟨Nat.zero_le _, by simp only [filenameLen]; omega,
        lt_of_le_of_lt hk (by decide)⟩,
        Nat.sub_zero]
  apply (cString_eq_iff _ 0 _).mpr
  simp only [Nat.zero_add]
  constructor
  · intro k hk
    rw [hbyte k (by omega), List.getD_eq_getElem?_getD, List.getElem?_eq_getElem hk, Option.getD_some]
    exact ⟨rfl, fun hz => path.zero_not_mem_name (hz ▸ List.getElem_mem hk)⟩
  · rw [hbyte _ hlen, List.getD_eq_getElem?_getD, List.getElem?_eq_none le_rfl, Option.getD_none]

namespace Formatted

variable {s : State}

theorem blockEnded (h : Formatted s) : BlockEnded (s.disk.block 1) :=
  fun i _ => DirEntry.ended_of_not_used (h.not_used i)

theorem nextOf_root (h : Formatted s) : nextOf s.disk 1 = 0 := by
  rw [nextOf, h.dir, nextBlockNo_setNextBlockNo _ (by decide)]

theorem findEntry_eq_none (h : Formatted s) (hd : s.disk.Sized) {path : Path}
    (hp : path.bytes ≠ [0x2F]) : findEntry s path = pure none := by
  have hnone : findName (s.disk.block 1) path.name = none := by
    cases hf : findName (s.disk.block 1) path.name with
    | none => rfl
    | some i =>
      obtain ⟨-, hname, -⟩ := (findName_eq_some h.blockEnded).mp hf
      refine absurd (DirEntry.used_iff.mpr ?_) (h.not_used i)
      rw [hname]
      exact path.name_ne_nil hp
  have hnext : nextBlockNo (s.disk.block 1) = 0 := h.nextOf_root
  unfold findEntry
  rw [if_neg hp, h.root]
  unfold State.findLoop
  simp only [if_neg (Nat.succ_ne_zero 0), readBlock_of_sized hd (show 1 < 20480 by decide),
    pure_bind, hnone, hnext]
  unfold State.findLoop
  rw [if_pos rfl]

theorem slotLoop_eq (h : Formatted s) (hd : s.disk.Sized) :
    s.slotLoop 1 = pure (some (1, s.disk.block 1, 0), s) := by
  have hfree : findFree (s.disk.block 1) = some 0 := by
    unfold findFree
    rw [List.find?_range_eq_some]
    have h0 := not_not.mp (h.not_used 0)
    rw [byteAt_dirAt _ _ (by decide)] at h0
    exact ⟨decide_eq_true h0, List.mem_range.mpr (by decide), fun j hj => absurd hj (Nat.not_lt_zero j)⟩
  unfold State.slotLoop
  simp only [if_neg (Nat.succ_ne_zero 0), readBlock_of_sized hd (show 1 < 20480 by decide),
    pure_bind, hfree]

/-- The first file is created in the first entry of the root directory. -/
theorem create (h : Formatted s) (hd : s.disk.Sized) {path : Path} (hp : Short path) (now : Int64) :
    ∃ e, e.name = path.name ∧ e.firstBlock = 0 ∧ e.blockCount = 0 ∧
      simplefsCreate s now path =
        pure (0, ⟨s.sb, s.disk.writeBlock 1 (setDirAt (s.disk.block 1) 0 e)⟩) := by
  obtain ⟨hfirst, hcount, -⟩ := DirEntry.blank_file (dirAt (s.disk.block 1) 0) path.name now rfl
  refine ⟨_, DirEntry.name_setName _ hp now, hfirst, hcount, ?_⟩
  unfold simplefsCreate
  simp only [if_neg (Nat.not_lt.mpr hp.length_le), h.findEntry_eq_none hd hp.not_root, h.root,
    h.slotLoop_eq hd, pure_bind, gt_iff_lt]

end Formatted

theorem writeLoop_singleton {s : State} (hd : s.disk.Sized) {b : ℕ} (h0 : b ≠ 0) (hb : b < 20480)
    (x : UInt8) :
    s.writeLoop b 0 [x] = pure ⟨s.sb, s.disk.writeBlock b ((s.disk.block b).copyAt 0
      (min (pageSize - 0) [x].length) fun k => [x].getD k 0)⟩ := by
  have hmin : min (pageSize - 0) [x].length = 1 := by
    rw [List.length_singleton]
    decide
  unfold State.writeLoop
  rw [if_pos ⟨by rw [List.length_singleton]; decide, h0⟩]
  simp only [readBlock_of_sized hd hb, pure_bind, hmin]
  unfold State.writeLoop
  rw [if_neg fun h => absurd h.1 (by simp)]

/-- The state after the first file is created. -/
structure OneFile (s : State) (path : Path) (e : DirEntry) : Prop where
  root : s.sb.rootDirBlock = 1
  first : s.sb.firstFreeBlock = 2
  free : s.sb.freeBlocks ≠ 0
  sized : s.disk.Sized
  ended : BlockEnded (s.disk.block 1)
  entry : dirAt (s.disk.block 1) 0 = e
  next : nextOf s.disk 1 = 0 ∧ nextOf s.disk 2 = 3
  name : e.name = path.name
  firstBlock : e.firstBlock = 0
  blockCount : e.blockCount = 0

theorem Formatted.oneFile {s : State} (h : Formatted s) (hd : s.disk.Sized) {path : Path}
    {e : DirEntry} (hname : e.name = path.name) (hfirst : e.firstBlock = 0)
    (hcount : e.blockCount = 0) :
    OneFile ⟨s.sb, s.disk.writeBlock 1 (setDirAt (s.disk.block 1) 0 e)⟩ path e where
  root := h.root
  first := h.first
  free hz := by
    have hf := h.free
    rw [hz] at hf
    exact absurd hf (by decide)
  sized := hd.writeBlock (by decide) _
  ended i hi := by
    rw [Disk.block_writeBlock_self, dirAt_setDirAt _ _ (by decide) hi]
    split_ifs
    · exact DirEntry.ended_of_firstBlock (by rw [hfirst])
    · exact h.blockEnded i hi
  entry := by
    rw [Disk.block_writeBlock_self, dirAt_setDirAt _ _ (by decide) (by decide), if_pos rfl]
  next := by
    have h2 := h.next 2 le_rfl (by decide)
    rw [if_neg (by decide)] at h2
    rw [nextOf_writeBlock, if_pos rfl, nextOf_writeBlock, if_neg (by decide),
      nextBlockNo_setDirAt _ _ (by decide)]
    exact ⟨h.nextOf_root, h2⟩
  name := hname
  firstBlock := hfirst
  blockCount := hcount

namespace OneFile

variable {s : State} {path : Path} {e : DirEntry}

theorem findName_eq (h : OneFile s path e) : findName (s.disk.block 1) path.name = some 0 := by
  refine (findName_eq_some h.ended).mpr ⟨by decide, ?_, fun j hj => absurd hj (Nat.not_lt_zero j)⟩
  rw [h.entry, h.name]

theorem findEntry_eq (h : OneFile s path e) (hp : path.bytes ≠ [0x2F]) :
    findEntry s path = pure (some (e, 1)) := by
  unfold findEntry
  rw [if_neg hp, h.root]
  unfold State.findLoop
  simp only [if_neg (Nat.succ_ne_zero 0), readBlock_of_sized h.sized (show 1 < 20480 by decide),
    pure_bind, h.findName_eq, h.entry]

/-- The first byte of the file goes to block 2, which still leads on to the free list. -/
theorem write (h : OneFile s path e) (hp : path.bytes ≠ [0x2F]) (x : UInt8) (now : Int64) :
    ∃ e' s', simplefsWrite s now path 0 [x] = pure (1, s') ∧ e'.firstBlock = 2 ∧ e.SameName e' ∧
      s'.sb.firstFreeBlock = 3 ∧ s'.sb.rootDirBlock = 1 ∧
      s'.disk.block 1 = storeEntry (s.disk.block 1) e'.name e' ∧
      nextOf s'.disk 1 = 0 ∧ nextOf s'.disk 2 = 3 := by
  have hsize := State.sized_take h.sized
  have hget : allocateBlock s = pure (2, s.take) := by
    rw [allocateBlock_of_sized h.sized h.free (by rw [h.first]; decide), h.first]
  obtain ⟨e₁, he₁⟩ : ∃ e₁, (e.setFirstBlock 2).setBlockCount ((e.setFirstBlock 2).blockCount + 1) =
    e₁ := ⟨_, rfl⟩
  have hfirst : e₁.firstBlock = 2 := by
    rw [← he₁, DirEntry.firstBlock_setBlockCount, DirEntry.firstBlock_setFirstBlock _ (by decide)]
  have hsame : e.SameName e₁ := by
    rw [← he₁]
    exact (e.sameName_setFirstBlock 2).trans (DirEntry.sameName_setBlockCount _ _)
  have hgrow : growLoop s e ⟨0, Vector.zeros blockSize⟩ 1 = pure (some e₁, s.take) := by
    simp only [growLoop, hget, pure_bind, if_neg (Nat.succ_ne_zero 1), if_pos h.firstBlock, he₁]
  have hresize : resize s e 1 = pure (some e₁, s.take) := by
    unfold resize grow
    rw [if_pos (by rw [h.blockCount]; decide), if_pos h.firstBlock, h.blockCount]
    exact hgrow
  have hwrite := writeLoop_singleton hsize (Nat.succ_ne_zero 1) (show 2 < 20480 by decide) x
  obtain ⟨disk, hdisk⟩ : ∃ disk, s.take.disk.writeBlock 2 ((s.take.disk.block 2).copyAt 0
    (min (pageSize - 0) [x].length) fun k => [x].getD k 0) = disk := ⟨_, rfl⟩
  have hsized : disk.Sized := hdisk ▸ hsize.writeBlock (by decide) _
  have hblock : disk.block 1 = s.disk.block 1 := by
    rw [← hdisk, Disk.block_writeBlock_of_ne _ _ (by decide), State.block_take _ (by decide)]
  have hnext : nextOf disk = nextOf s.take.disk := by
    rw [← hdisk]
    exact nextOf_writeData _ 2 (Nat.zero_le _) [x]
  have hnext2 : nextOf s.take.disk 2 = 3 := by
    rw [nextOf, State.block_take _ (by decide)]
    exact h.next.2
  rw [hdisk] at hwrite
  obtain ⟨e', he'⟩ : ∃ e', (e₁.setFileSize (if (0 + [x].length) % 2 ^ 64 > e₁.fileSize then
    (0 + [x].length) % 2 ^ 64 else e₁.fileSize)).setMtime now = e' := ⟨_, rfl⟩
  refine ⟨e', ⟨s.take.sb, disk.writeBlock 1 (storeEntry (disk.block 1) e'.name e')⟩, ?_, ?_, ?_, ?_,
    ?_, ?_, ?_, ?_⟩
  · have hreq : requiredBlocks 0 [x].length = 1 := by
      rw [List.length_singleton]
      decide
    unfold simplefsWrite
    simp only [h.findEntry_eq hp, hreq, pure_bind, hresize, hfirst, Nat.zero_div, Nat.zero_mod,
      skipLoop, hwrite, readBlock_of_sized hsized (show 1 < 20480 by decide), he',
      if_neg (show ¬ 1 > maxFileBlocks by decide)]
    rfl
  · rw [← he', DirEntry.firstBlock_setMtime, DirEntry.firstBlock_setFileSize, hfirst]
  · rw [← he']
    exact DirEntry.sameName_setFields _ _ _ hsame
  · show s.take.sb.firstFreeBlock = 3
    rw [State.take_sb, h.first]
    exact h.next.2
  · show s.take.sb.rootDirBlock = 1
    rw [State.take_sb, SuperBlock.take_rootDirBlock, h.root]
  · rw [Disk.block_writeBlock_self, hblock]
  · rw [nextOf_writeBlock, if_pos rfl, nextBlockNo_storeEntry, hblock]
    exact h.next.1
  · rw [nextOf_writeBlock, if_neg (by decide), hnext, hnext2]

end OneFile

end SimpleFS.Chained
