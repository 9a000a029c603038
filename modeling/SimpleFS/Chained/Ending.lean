import SimpleFS.Chained.Separate

/-! Which writes end. The walks over chains do, since a chain that ends is not longer than its
blocks; the loop that looks for the last block does not move on. -/
namespace SimpleFS.Chained
open Call

variable {s : State} {b : ℕ} {l : List ℕ}

theorem readBlock_ends (d : Disk) (b : ℕ) : (readBlock d b).Ends := by
  unfold readBlock
  cases d.readBlock b with
  | none => exact ends_exit
  | some blockData => exact ends_pure blockData

theorem allocateBlock_ends (s : State) : (allocateBlock s).Ends := by
  unfold allocateBlock
  split_ifs
  · exact ends_pure _
  · exact ends_bind.mpr ⟨readBlock_ends _ _, fun _ _ => ends_pure _⟩

theorem findLoop_ends (h : Chain (nextOf s.disk) 0 b l) (name : List UInt8) :
    (s.findLoop name b).Ends := by
  induction h with
  | nil =>
    rw [State.findLoop, if_pos rfl]
    exact ends_pure _
  | cons hne _ ih =>
    rw [State.findLoop, if_neg hne]
    refine ends_bind.mpr ⟨readBlock_ends _ _, fun blockData hread => ?_⟩
    rw [readBlock_eq_pure hread]
    cases findName (s.disk.block _) name with
    | some i => exact ends_pure _
    | none => exact ih

theorem findEntry_ends (h : Chain (nextOf s.disk) 0 s.sb.rootDirBlock l) (path : Path) :
    (findEntry s path).Ends := by
  unfold findEntry
  split_ifs
  · exact ends_pure _
  · exact findLoop_ends h path.name

theorem skipLoop_ends (d : Disk) (n b : ℕ) : (skipLoop d n b).Ends := by
  induction n generalizing b with
  | zero => exact ends_pure b
  | succ n ih => exact ends_bind.mpr ⟨readBlock_ends _ _, fun _ _ => ih _⟩

theorem growLoop_ends (s : State) (e : DirEntry) (last : Cursor) (n : ℕ) :
    (growLoop s e last n).Ends := by
  induction n generalizing s e last with
  | zero => exact ends_pure _
  | succ n ih =>
    unfold growLoop
    refine ends_bind.mpr ⟨allocateBlock_ends s, fun r _ => ?_⟩
    dsimp only
    split_ifs
    · exact ends_pure _
    · exact ih _ _ _
    · exact ih _ _ _

/-- Every turn writes a byte at least. -/
theorem writeLoop_ends (s : State) (b : ℕ) {off : ℕ} (hoff : off < pageSize) (data : List UInt8) :
    (s.writeLoop b off data).Ends := by
  obtain ⟨n, hn⟩ : ∃ n, data.length = n := ⟨_, rfl⟩
  induction n using Nat.strong_induction_on generalizing s b off data with
  | _ n ih =>
    unfold State.writeLoop
    split_ifs with hc
    · refine ends_bind.mpr ⟨readBlock_ends _ _, fun _ _ => ?_⟩
      refine ih _ ?_ _ _ (by decide) _ rfl
      rw [List.length_drop]
      omega
    · exact ends_pure _

/-- Freeing a block does not touch the rest of a chain. -/
theorem nextOf_freeBlock (s : State) {b c : ℕ} (h0 : c ≠ 0) (hb : c ≠ b) :
    nextOf (freeBlock s b).disk c = nextOf s.disk c := by
  unfold freeBlock
  rw [nextOf_writeBlock, if_neg h0, nextOf_writeBlock, if_neg hb]

theorem nextOf_freeBlock_self (s : State) (h0 : b ≠ 0) (hlt : s.sb.firstFreeBlock < 65536) :
    nextOf (freeBlock s b).disk b = s.sb.firstFreeBlock := by
  unfold freeBlock
  rw [nextOf_writeBlock, if_neg h0, nextOf_writeBlock, if_pos rfl, nextBlockNo_setNextBlockNo _ hlt]

section FreeLoop

variable {α : Type} {note : α → α}

theorem freeLoop_ends_of_chain (h : Chain (nextOf s.disk) 0 b l) (a : α) :
    (State.freeLoop note a s b).Ends := by
  induction l generalizing s b a with
  | nil =>
    cases h
    rw [State.freeLoop, if_pos rfl]
    exact ends_pure _
  | cons x l ih =>
    have hnodup := List.nodup_cons.mp h.nodup
    cases h with
    | cons hne h =>
      rw [State.freeLoop, if_neg hne]
      refine ends_bind.mpr ⟨readBlock_ends _ _, fun blockData hread => ?_⟩
      rw [readBlock_eq_pure hread]
      refine ih (h.congr fun c hc => ?_) _
      exact nextOf_freeBlock s (fun hz => h.stop_not_mem (hz ▸ hc)) fun heq =>
        hnodup.1 (heq ▸ hc)

theorem nextOf_lt (d : Disk) (b : ℕ) : nextOf d b < 65536 := by
  have h := (d.block b).readLE_lt pageSize 2
  exact h

/-- Freeing ends from any block: a block that is freed for the first time lengthens the free list,
and one that is in it already leads along it. -/
theorem freeLoop_ends (h : Chain (nextOf s.disk) 0 s.sb.firstFreeBlock l)
    (hfirst : s.sb.firstFreeBlock < 65536) (hb : b < 65536) (a : α) :
    (State.freeLoop note a s b).Ends := by
  obtain ⟨n, hn⟩ : ∃ n, 65536 - l.length = n := ⟨_, rfl⟩
  induction n using Nat.strong_induction_on generalizing s b l a with
  | _ n ih =>
    by_cases hmem : b ∈ l
    · obtain ⟨pre, post, rfl⟩ := List.append_of_mem hmem
      exact freeLoop_ends_of_chain h.split a
    unfold State.freeLoop
    split_ifs with h0
    · exact ends_pure _
    refine ends_bind.mpr ⟨readBlock_ends _ _, fun blockData hread => ?_⟩
    have hchain : Chain (nextOf (freeBlock s b).disk) 0 b (b :: l) := by
      refine .cons h0 ?_
      rw [nextOf_freeBlock_self s h0 hfirst]
      exact h.congr fun c hc =>
        nextOf_freeBlock s (fun hz => h.stop_not_mem (hz ▸ hc)) fun heq => hmem (heq ▸ hc)
    have hlen : (b :: l).length ≤ 65536 := by
      have hsmall := hchain.forall_mem (p := fun x => x < 65536) hb (nextOf_lt (freeBlock s b).disk)
      have hsub : b :: l ⊆ List.range 65536 := fun x hx => List.mem_range.mpr (hsmall x hx)
      simpa using (hchain.nodup.subperm hsub).length_le
    rw [List.length_cons] at hlen
    rw [readBlock_eq_pure hread]
    exact ih (65536 - (b :: l).length) (by rw [List.length_cons]; omega) hchain hb
      (nextOf_lt s.disk b) _ rfl

end FreeLoop

theorem shrink_ends (h : Chain (nextOf s.disk) 0 s.sb.firstFreeBlock l)
    (hfirst : s.sb.firstFreeBlock < 65536) (e : DirEntry) (required : ℕ) :
    (shrink s e required).Ends := by
  unfold shrink
  refine ends_bind.mpr ⟨skipLoop_ends _ _ _, fun keep _ => ?_⟩
  refine ends_bind.mpr ⟨readBlock_ends _ _, fun blockData hread => ?_⟩
  rw [readBlock_eq_pure hread]
  obtain ⟨disk, hdisk⟩ : ∃ disk,
    s.disk.writeBlock keep (setNextBlockNo (s.disk.block keep) 0) = disk := ⟨_, rfl⟩
  have hkeep : nextOf disk keep = 0 := by
    rw [← hdisk, nextOf_writeBlock, if_pos rfl, nextBlockNo_setNextBlockNo _ (by decide)]
  have hrest : ∀ c, c ≠ keep → nextOf disk c = nextOf s.disk c := by
    intro c hc
    rw [← hdisk, nextOf_writeBlock, if_neg hc]
  obtain ⟨l', hcut⟩ := h.cut hkeep hrest
  simp only [hdisk]
  exact freeLoop_ends (s := ⟨s.sb, disk⟩) hcut hfirst (nextOf_lt s.disk keep) e

/-- The loop for the last block ends only where it starts. -/
theorem last_ends {c : Cursor} : (liftM c.last : Call Cursor).Ends ↔ nextBlockNo c.data = 0 := by
  rw [ends_lift]
  constructor
  · intro h
    obtain ⟨c', hc⟩ := Option.ne_none_iff_exists'.mp h
    exact (last_eq_some hc).2
  · intro h
    rw [Cursor.last, if_neg (not_not.mpr h)]
    nofun

/-- The file has a first block on the disk, and another one after it. -/
def HasSecond (d : Disk) (e : DirEntry) : Prop :=
  e.firstBlock ≠ 0 ∧ (e.firstBlock + 1) * blockSize ≤ d.size ∧ nextOf d e.firstBlock ≠ 0

theorem grow_ends {e : DirEntry} {required : ℕ} :
    (grow s e required).Ends ↔ ¬HasSecond s.disk e := by
  unfold grow HasSecond
  split_ifs with hf
  · exact iff_of_true (growLoop_ends _ _ _ _) fun h => h.1 hf
  rw [ends_bind]
  by_cases hsize : (e.firstBlock + 1) * blockSize ≤ s.disk.size
  · have hread : readBlock s.disk e.firstBlock = pure (s.disk.block e.firstBlock) := by
      simp only [readBlock, Disk.readBlock_of_le hsize]
    constructor
    · rintro ⟨-, h⟩ ⟨-, -, hnext⟩
      have hlast := last_ends.mp (ends_bind.mp (h _ hread)).1
      dsimp only at hlast
      exact hnext hlast
    · intro h
      refine ⟨readBlock_ends _ _, fun blockData hr => ?_⟩
      rw [readBlock_eq_pure hr]
      have hnext : nextOf s.disk e.firstBlock = 0 := by
        by_contra hne
        exact h ⟨hf, hsize, hne⟩
      exact ends_bind.mpr ⟨last_ends.mpr hnext, fun _ _ => growLoop_ends _ _ _ _⟩
  · refine iff_of_true ⟨readBlock_ends _ _, fun blockData hr => ?_⟩ fun h => hsize h.2.1
    simp only [readBlock, Disk.readBlock, if_neg hsize] at hr
    exact absurd hr (exit_ne_pure _)

theorem resize_ends (h : Chain (nextOf s.disk) 0 s.sb.firstFreeBlock l)
    (hfirst : s.sb.firstFreeBlock < 65536) {e : DirEntry} {required : ℕ} :
    (resize s e required).Ends ↔ (e.blockCount < required → ¬HasSecond s.disk e) := by
  unfold resize
  split_ifs with hmore hless
  · rw [grow_ends]
    exact ⟨fun h _ => h, fun h => h hmore⟩
  · refine iff_of_true (ends_bind.mpr ⟨shrink_ends h hfirst e required, fun _ _ => ends_pure _⟩) ?_
    exact fun hlt => absurd hlt hmore
  · exact iff_of_true (ends_pure _) fun hlt => absurd hlt hmore

/-- The write is to a file that has a second block and needs more blocks than it has. -/
def SeeksLast (s : State) (path : Path) (offset size : ℕ) : Prop :=
  ∃ e b, findEntry s path = pure (some (e, b)) ∧ requiredBlocks offset size ≤ maxFileBlocks ∧
    e.blockCount < requiredBlocks offset size ∧ HasSecond s.disk e

theorem not_ends_of_seeksLast {now : Int64} {path : Path} {offset : ℕ} {data : List UInt8}
    (h : SeeksLast s path offset data.length) : ¬(simplefsWrite s now path offset data).Ends := by
  obtain ⟨e, b, hfind, hmax, hmore, hsecond⟩ := h
  intro hends
  unfold simplefsWrite at hends
  have hends := (ends_bind.mp hends).2 _ hfind
  simp only [if_neg (Nat.not_lt.mpr hmax)] at hends
  have hresize := (ends_bind.mp hends).1
  unfold resize at hresize
  rw [if_pos hmore] at hresize
  exact grow_ends.mp hresize hsecond

/-- A write ends, unless it has to look for the last block of a file that has a second one. -/
theorem simplefsWrite_ends_iff {dir free : List ℕ} (hdir : Chain (nextOf s.disk) 0 s.sb.rootDirBlock dir)
    (hfree : Chain (nextOf s.disk) 0 s.sb.firstFreeBlock free) (hlt : s.sb.firstFreeBlock < 2 ^ 16)
    (now : Int64) (path : Path) (offset : ℕ) (data : List UInt8) :
    (simplefsWrite s now path offset data).Ends ↔ ¬SeeksLast s path offset data.length := by
  constructor
  · exact fun h hseek => not_ends_of_seeksLast hseek h
  · intro h
    unfold simplefsWrite
    refine ends_bind.mpr ⟨findEntry_ends hdir path, fun found hfind => ?_⟩
    cases found with
    | none => exact ends_pure _
    | some f =>
      obtain ⟨e, b⟩ := f
      dsimp only
      split_ifs with hbig
      · exact ends_pure _
      refine ends_bind.mpr ⟨(resize_ends hfree hlt).mpr fun hmore hsecond => ?_, ?_⟩
      · exact h ⟨e, b, hfind, Nat.not_lt.mp hbig, hmore, hsecond⟩
      rintro ⟨_ | e', s'⟩ -
      · exact ends_pure _
      refine ends_bind.mpr ⟨skipLoop_ends _ _ _, fun current _ => ?_⟩
      refine ends_bind.mpr ⟨writeLoop_ends _ _ (Nat.mod_lt _ (by decide)) _, fun s₂ _ => ?_⟩
      exact ends_bind.mpr ⟨readBlock_ends _ _, fun _ _ => ends_pure _⟩

/-- The entry of a file `a` with two full blocks. -/
def entryA : DirEntry :=
  ((((DirEntry.mk (Vector.zeros dirEntrySize)).setName [97]).setFirstBlock 2).setBlockCount
    2).setFileSize 1020

/-- An image with the directory in block 1, a file in blocks 2 and 3, and no free block. -/
def twoBlockFile : State where
  sb := ⟨0, 1, 20480, 0, magic⟩
  disk := (newImage.writeBlock 1 (setDirAt (Vector.zeros blockSize) 0 entryA)).writeBlock 2
    (setNextBlockNo (Vector.zeros blockSize) 3)

theorem sized_twoBlockFile : twoBlockFile.disk.Sized :=
  (sized_newImage.writeBlock (by decide) _).writeBlock (by decide) _

theorem block_newImage (b : ℕ) : newImage.block b = Vector.zeros blockSize := by
  apply Vector.ext_byteAt
  intro k hk
  rw [Disk.block, Vector.byteAt_ofFn _ hk, Vector.byteAt_zeros]
  simp [newImage, Disk.truncate, Disk.ofImage]

theorem dirBlock_twoBlockFile :
    twoBlockFile.disk.block 1 = setDirAt (Vector.zeros blockSize) 0 entryA := by
  unfold twoBlockFile
  rw [Disk.block_writeBlock_of_ne _ _ (by decide), Disk.block_writeBlock_self]

theorem nextOf_twoBlockFile (b : ℕ) : nextOf twoBlockFile.disk b = if b = 2 then 3 else 0 := by
  unfold twoBlockFile
  rw [nextOf_writeBlock, nextOf_writeBlock, nextBlockNo_setNextBlockNo _ (by decide),
    nextBlockNo_setDirAt _ _ (by decide), nextBlockNo_zeros, nextOf, block_newImage, nextBlockNo_zeros]
  split_ifs <;> rfl

theorem findEntry_twoBlockFile : findEntry twoBlockFile pathA = pure (some (entryA, 1)) := by
  have hentry : dirAt (twoBlockFile.disk.block 1) 0 = entryA := by
    rw [dirBlock_twoBlockFile, dirAt_setDirAt _ _ (by decide) (by decide), if_pos rfl]
  have hname : findName (twoBlockFile.disk.block 1) pathA.name = some 0 := by
    refine (findName_eq_some_iff (by decide)).mpr ⟨by decide, ?_, fun j hj => absurd hj (by omega)⟩
    rw [hentry]
    decide
  have hread := readBlock_of_sized sized_twoBlockFile (show 1 < 20480 by decide)
  unfold findEntry
  rw [if_neg (by decide)]
  unfold State.findLoop
  rw [if_neg (by decide)]
  show (readBlock twoBlockFile.disk 1 >>= _) = _
  simp only [hread, pure_bind, hname, hentry]
  rfl

theorem dir_twoBlockFile : Chain (nextOf twoBlockFile.disk) 0 twoBlockFile.sb.rootDirBlock [1] := by
  refine .cons (by decide) ?_
  rw [nextOf_twoBlockFile]
  exact .nil

theorem file_twoBlockFile : Chain (nextOf twoBlockFile.disk) 0 entryA.firstBlock [2, 3] := by
  have hfirst : entryA.firstBlock = 2 := by decide
  rw [hfirst]
  refine .cons (by decide) ?_
  rw [nextOf_twoBlockFile, if_pos rfl]
  refine .cons (by decide) ?_
  rw [nextOf_twoBlockFile, if_neg (by decide)]
  exact .nil

/-- Writing to the second block of the file ends. -/
theorem ends_twoBlockFile : (simplefsWrite twoBlockFile 0 pathA 600 [65]).Ends :=
  (simplefsWrite_ends_iff dir_twoBlockFile .nil (by decide) 0 pathA 600 [65]).mpr (by
    rintro ⟨e, b, hfind, -, hmore, -⟩
    rw [findEntry_twoBlockFile, pure_inj, Option.some.injEq, Prod.mk.injEq] at hfind
    rw [← hfind.1] at hmore
    exact absurd hmore (by decide))

theorem files_twoBlockFile {i : ℕ} (hi : i < dirEntriesPerBlock)
    (hused : (dirAt (twoBlockFile.disk.block 1) i).Used) :
    ∃ l, Chain (nextOf twoBlockFile.disk) 0 (dirAt (twoBlockFile.disk.block 1) i).firstBlock l := by
  rw [dirBlock_twoBlockFile, dirAt_setDirAt _ _ (by decide) hi] at hused ⊢
  split_ifs at hused ⊢ with h0
  · exact ⟨_, file_twoBlockFile⟩
  · refine absurd ?_ hused
    rw [dirAt, Vector.byteAt_slice _ _ (by decide), Vector.byteAt_zeros]

/-- All chains of the image end, and a write for which the file needs a third block does not. -/
theorem not_ends_twoBlockFile :
    Chain (nextOf twoBlockFile.disk) 0 twoBlockFile.sb.rootDirBlock [1] ∧
    Chain (nextOf twoBlockFile.disk) 0 twoBlockFile.sb.firstFreeBlock [] ∧
    (∀ i < dirEntriesPerBlock, (dirAt (twoBlockFile.disk.block 1) i).Used →
      ∃ l, Chain (nextOf twoBlockFile.disk) 0 (dirAt (twoBlockFile.disk.block 1) i).firstBlock l) ∧
    ¬(simplefsWrite twoBlockFile 0 pathA 1020 [65]).Ends := by
  refine ⟨dir_twoBlockFile, .nil, fun i hi hused => files_twoBlockFile hi hused,
    not_ends_of_seeksLast ⟨entryA, 1, findEntry_twoBlockFile, by decide, by decide, ?_⟩⟩
  have hfirst : entryA.firstBlock = 2 := by decide
  refine ⟨by decide, ?_, ?_⟩
  · rw [show twoBlockFile.disk.size = diskSize from sized_twoBlockFile]
    decide
  · rw [hfirst, nextOf_twoBlockFile]
    decide

end SimpleFS.Chained
