import SimpleFS.Chained.Fitting

/-! Which writes change their own range of the file only: what a write makes of the file that a read
gives back. -/
namespace SimpleFS.Chained
open Overlay

namespace DirEntry

variable (e : DirEntry) (now : Int64) (fileEnd : ℕ)

/-- The entry that a write stores, for data that ends at `fileEnd`. -/
def written : DirEntry :=
  (e.setFileSize (if fileEnd > e.fileSize then fileEnd else e.fileSize)).setMtime now

theorem firstBlock_written : (e.written now fileEnd).firstBlock = e.firstBlock := by
  unfold written
  rw [firstBlock_setMtime, firstBlock_setFileSize]

theorem blockCount_written : (e.written now fileEnd).blockCount = e.blockCount := by
  unfold written
  rw [blockCount_setMtime, blockCount_setFileSize]

theorem fileSize_written (h : fileEnd < 2 ^ 32) :
    (e.written now fileEnd).fileSize = max e.fileSize fileEnd := by
  have hlt := e.fileSize_lt
  have hset : ∀ n < 2 ^ 32, ((e.setFileSize n).setMtime now).fileSize = n := by
    intro n hn
    have hself : (e.setFileSize n).fileSize = n :=
      (Vector.readLE_copyAt_self _ _ (by decide)).trans (Nat.mod_eq_of_lt hn)
    exact Eq.trans (Vector.readLE_copyAt_of_disjoint _ _ (by decide)) hself
  unfold written
  rw [hset _ (by split_ifs <;> omega)]
  split_ifs <;> omega

theorem name_written (h : e.blockCount < 256) : (e.written now fileEnd).name = e.name := by
  have hlen := length_name_lt h
  refine name_congr fun k hk => ?_
  rw [written, setMtime, Vector.byteAt_copyAt, if_neg (by omega), setFileSize, Vector.byteAt_copyAt,
    if_neg (by omega)]

end DirEntry

/-- The blocks that a file of the largest size needs. -/
theorem requiredBlocks_spec {offset size : ℕ} (h : offset + size ≤ maxFileBlocks * pageSize) :
    requiredBlocks offset size ≤ maxFileBlocks ∧
      offset + size ≤ requiredBlocks offset size * pageSize ∧
      (requiredBlocks offset size - 1) * pageSize ≤ offset + size - 1 := by
  unfold requiredBlocks
  simp only [maxFileBlocks, pageSize, blockSize] at h ⊢
  omega

namespace FileAt

variable {s : State} {path : Path} {e : DirEntry} {b : ℕ} {dir l free : List ℕ}

theorem slot (h : FileAt s path e b dir l free) :
    b ∈ dir ∧ b < 20480 ∧ ∃ i, findName (s.disk.block b) path.name = some i ∧
      e = dirAt (s.disk.block b) i := by
  have hfind := h.found
  unfold findEntry at hfind
  split_ifs at hfind
  · rw [Call.pure_inj] at hfind
    cases hfind
  · obtain ⟨hb, hread, hi⟩ := findLoop_eq_pure h.dirChain hfind
    exact ⟨hb, lt_of_readBlock h.sized hread, hi⟩

theorem fileSize_le (h : FileAt s path e b dir l free) : e.fileSize ≤ l.length * pageSize := by
  have hfits := h.fits
  rw [h.count]
  simp only [pageSize, blockSize] at hfits ⊢
  omega

theorem lt_fileSize (h : FileAt s path e b dir l free) {n : ℕ} (hn : n < e.blockCount) :
    n * pageSize < e.fileSize := by
  have hfits := h.fits
  rw [hfits] at hn
  simp only [pageSize, blockSize] at hn ⊢
  omega

/-- No file on the disk is so large that its name could run on past the entry. -/
theorem name_lt (h : FileAt s path e b dir l free) : path.name.length < dirEntrySize := by
  obtain ⟨-, -, i, hi, rfl⟩ := h.slot
  have hsub : l ⊆ List.range 20480 := fun x hx =>
    List.mem_range.mpr (h.lt_of_mem (List.mem_append_left _ hx))
  have hlen := (h.fileChain.nodup.subperm hsub).length_le
  have hsize := h.fileSize_le
  rw [List.length_range] at hlen
  have hz : (dirAt (s.disk.block b) i).bytes.byteAt 19 = 0 := by
    rw [DirEntry.byteAt_fileSizeHigh, Nat.div_eq_of_lt]
    · rfl
    · simp only [pageSize, blockSize] at hsize
      omega
  unfold findName at hi
  have hname := List.find?_some hi
  rw [decide_eq_true_eq] at hname
  obtain ⟨hbytes, -⟩ := (cString_eq_iff _ _ _).mp hname
  rw [byteAt_dirAt _ _ (by decide)] at hz
  by_contra hlt
  simp only [dirEntrySize] at hlt
  obtain ⟨h1, h2⟩ := hbytes 19 (by omega)
  exact h2 (h1.symm.trans hz)

theorem name_eq (h : FileAt s path e b dir l free) : e.name = path.name := by
  obtain ⟨-, -, i, hi, rfl⟩ := h.slot
  exact ((findName_eq_some_iff h.name_lt).mp hi).2.1

/-- A file that has been given more blocks had one at most, and the free list had the others. -/
theorem room (h : FileAt s path e b dir l free) {required : ℕ} (hlt : e.blockCount < required)
    {e' : DirEntry} {s' : State} (hr : resize s e required = pure (some e', s')) :
    l.length ≤ 1 ∧ required - e.blockCount ≤ s.sb.freeBlocks.toNat ∧
      required - e.blockCount ≤ free.length := by
  have hon : ∀ x ∈ free, x < 20480 := fun x hx => h.lt_of_mem (List.mem_append_right _ hx)
  unfold resize at hr
  rw [if_pos hlt] at hr
  unfold grow at hr
  split_ifs at hr with hf
  · refine ⟨?_, growLoop_room h.sized h.freeChain hon (fun hne => absurd hf hne) hr⟩
    rw [h.firstBlock_eq_zero_iff.mp hf]
    exact Nat.zero_le 1
  · obtain ⟨blockData, hread, hr⟩ := Call.bind_eq_pure.mp hr
    obtain ⟨last, hlast, hr⟩ := Call.bind_eq_pure.mp hr
    obtain rfl := readBlock_eq_pure hread
    obtain ⟨rfl, hz⟩ := last_eq_some (Call.lift_eq_pure.mp hlast)
    have hz : nextOf s.disk e.firstBlock = 0 := hz
    obtain ⟨rest, hl, hnext⟩ := h.fileChain.eq_cons hf
    rw [hz] at hnext
    obtain rfl := hnext.eq_nil
    have hmem : e.firstBlock ∈ l := by rw [hl]; exact List.mem_cons_self
    have hout : Cursor.block ⟨e.firstBlock, s.disk.block e.firstBlock⟩ < 20480 ∧
        Cursor.block ⟨e.firstBlock, s.disk.block e.firstBlock⟩ ∉ free :=
      ⟨h.lt_of_mem (List.mem_append_left _ hmem), fun hm => h.file_free hmem hm⟩
    refine ⟨?_, growLoop_room h.sized h.freeChain hon (fun _ => hout) hr⟩
    rw [hl]
    exact le_rfl

/-- A write to a file whose blocks have been fitted: it returns, and its data goes to its range of
the blocks. The entry is stored if it still has the name. -/
theorem write_of_resize (h : FileAt s path e b dir l free) {offset : ℕ} {data : List UInt8}
    (hlen : offset + data.length ≤ maxFileBlocks * pageSize) {e' : DirEntry} {s₁ : State}
    (hr : resize s e (requiredBlocks offset data.length) = pure (some e', s₁))
    (hcount : e'.blockCount < 256) (hd : s₁.disk.Sized)
    (hroot : s₁.sb.rootDirBlock = s.sb.rootDirBlock) {blocks : List ℕ}
    (hc : Chain (nextOf s₁.disk) 0 e'.firstBlock blocks) (hlt : ∀ x ∈ blocks, x < 20480)
    (hfit : offset + data.length ≤ blocks.length * pageSize)
    (hdir : ∀ x ∈ dir, s₁.disk.block x = s.disk.block x ∧ x ∉ blocks) (now : Int64) :
    ∃ s', simplefsWrite s now path offset data = pure ((data.length : ℤ), s') ∧ s'.disk.Sized ∧
      findEntry s' path = pure (some (if e'.name = path.name then
        e'.written now (offset + data.length) else e, b)) ∧
      Chain (nextOf s'.disk) 0 e'.firstBlock blocks ∧
      ∀ p < blocks.length * pageSize,
        fileByte s'.disk blocks p = patch (fileByte s₁.disk blocks) offset data p := by
  obtain ⟨hb, hblt, i, hi, he⟩ := h.slot
  obtain ⟨hmax, hcover, -⟩ := requiredBlocks_spec hlen
  obtain ⟨c, s₂, hskip, hw, hsb, hs₂, hnext, hout, hbytes⟩ := writeData_eq hd hc hlt hfit
  obtain ⟨e₂, he₂⟩ : ∃ e₂, e'.written now (offset + data.length) = e₂ := ⟨_, rfl⟩
  have hname : e₂.name = e'.name := by
    rw [← he₂]
    exact e'.name_written now _ hcount
  have hname' : e₂.name.length < dirEntrySize := by
    have hlt := DirEntry.length_name_lt hcount
    rw [hname]
    exact hlt.trans (by decide)
  obtain ⟨blockData, hblock⟩ : ∃ blockData, storeEntry (s₂.disk.block b) e₂.name e₂ = blockData :=
    ⟨_, rfl⟩
  obtain ⟨disk, hdisk⟩ : ∃ disk, s₂.disk.writeBlock b blockData = disk := ⟨_, rfl⟩
  have hdir₂ : ∀ x ∈ dir, s₂.disk.block x = s.disk.block x := fun x hx => by
    rw [hout x (hdir x hx).2, (hdir x hx).1]
  have hnextb : nextBlockNo blockData = nextOf s.disk b := by
    rw [← hblock, nextBlockNo_storeEntry, hdir₂ b hb, nextOf]
  have hother : ∀ x, x ≠ b → disk.block x = s₂.disk.block x := fun x hx => by
    rw [← hdisk, Disk.block_writeBlock_of_ne _ _ hx]
  have hself : disk.block b = blockData := by rw [← hdisk, Disk.block_writeBlock_self]
  have hbblocks : ∀ x ∈ blocks, x ≠ b := fun x hx heq => (hdir b hb).2 (heq ▸ hx)
  obtain ⟨hfound, hentry⟩ := findName_storeEntry h.name_lt hname' hi
  rw [← hdir₂ b hb, hblock] at hfound hentry
  rw [hname, hdir₂ b hb, ← he] at hentry
  refine ⟨⟨s₂.sb, disk⟩, ?_, ?_, ?_, ?_, fun p hp => ?_⟩
  · have hmod : (offset + data.length) % 2 ^ 64 = offset + data.length := by
      simp only [maxFileBlocks, pageSize, blockSize] at hlen
      omega
    unfold simplefsWrite
    simp only [h.found, pure_bind, if_neg (Nat.not_lt.mpr hmax), hr, hskip, hw, hmod,
      readBlock_of_sized hs₂ hblt]
    unfold DirEntry.written at he₂
    rw [he₂, hblock, hdisk]
  · rw [← hdisk]
    exact hs₂.writeBlock hblt _
  · refine findEntry_of_update (i := i) h.sized ?_ h.dirChain ?_ (fun x hx => ?_)
      (fun x hx hxb => ?_) ?_ ?_ h.found
    · rw [← hdisk]
      exact hs₂.writeBlock hblt _
    · rw [hsb, hroot]
    · by_cases hxb : x = b
      · rw [hxb]
        show nextBlockNo (disk.block b) = _
        rw [hself, hnextb]
      · show nextBlockNo (disk.block x) = _
        rw [hother x hxb, hdir₂ x hx, nextOf]
    · exact (hother x hxb).trans (hdir₂ x hx)
    · show findName (disk.block b) path.name = some i
      rw [hself, hfound]
    · show dirAt (disk.block b) i = _
      rw [hself, hentry, he₂]
  · refine hc.congr fun x hx => ?_
    show nextBlockNo (disk.block x) = _
    rw [hother x (hbblocks x hx), ← hnext, nextOf]
  · rw [← hbytes p hp]
    exact fileByte_congr s₂.disk hp fun x hx k _ => by rw [hother x (hbblocks x hx)]

end FileAt

/-- The content of a file with `data` put over it at `offset`, after zeros where it did not reach. -/
def overlaid (old : List UInt8) (offset : ℕ) (data : List UInt8) : List UInt8 :=
  window (patch (fun p => old.getD p 0) offset data) 0 (max old.length (offset + data.length))

theorem length_overlaid (old : List UInt8) (offset : ℕ) (data : List UInt8) :
    (overlaid old offset data).length = max old.length (offset + data.length) :=
  length_window ..

/-- A write that returns its size changes the content of the file in its own range only. -/
def OverlaysOnly (s : State) (now : Int64) (path : Path) (offset : ℕ) (data : List UInt8) : Prop :=
  ∀ s' old, simplefsWrite s now path offset data = pure ((data.length : ℤ), s') →
    readAll s path = pure (.ok old) → readAll s' path = pure (.ok (overlaid old offset data))

/-- The bytes between the end of the file and `offset` are zero on the disk, where they lie in a
block whose content the write keeps. -/
def BlankGap (d : Disk) (e : DirEntry) (l free : List ℕ) (required offset : ℕ) : Prop :=
  ∀ p, e.fileSize ≤ p → p < offset → Kept l required p → fileByte d (l ++ free) p = 0

section overlays

variable {s : State} {path : Path} {e : DirEntry} {b : ℕ} {dir l free : List ℕ} {now : Int64}
  {offset : ℕ} {data : List UInt8}

theorem overlaysOnly_iff_readAll {s' : State} {old : List UInt8}
    (hw : simplefsWrite s now path offset data = pure ((data.length : ℤ), s'))
    (hr : readAll s path = pure (.ok old)) :
    OverlaysOnly s now path offset data ↔ readAll s' path = pure (.ok (overlaid old offset data)) := by
  constructor
  · exact fun h => h s' old hw hr
  · intro h s'' old' hw' hr'
    rw [hw, Call.pure_inj, Prod.mk.injEq] at hw'
    rw [hr, Call.pure_inj, Except.ok.injEq] at hr'
    rw [← hw'.2, ← hr']
    exact h

namespace FileAt

theorem readAll (h : FileAt s path e b dir l free) :
    readAll s path = pure (.ok (window (fileByte s.disk l) 0 e.fileSize)) := by
  have hl : ∀ x ∈ l, x < 20480 := fun x hx => h.lt_of_mem (List.mem_append_left _ hx)
  rw [readAll_eq h.found h.sized h.fileChain hl, min_eq_left h.fileSize_le]

/-- The directory is out of the way of every write to the file. -/
theorem dir_spec (h : FileAt s path e b dir l free) {x : ℕ} (hx : x ∈ dir) :
    x ≠ 0 ∧ x ∉ l ∧ x ∉ free :=
  ⟨fun hz => h.dirChain.stop_not_mem (hz ▸ hx), fun hm => h.dir_file hx hm,
    fun hm => h.dir_free hx hm⟩

/-- A write that cuts blocks off a file loses what they hold. -/
theorem not_overlaysOnly (h : FileAt s path e b dir l free)
    (hlen : offset + data.length ≤ maxFileBlocks * pageSize) (hdata : data ≠ [])
    (hlt : requiredBlocks offset data.length < e.blockCount) :
    ¬OverlaysOnly s now path offset data := by
  have hpos := List.length_pos_iff.mpr hdata
  obtain ⟨hmax, hcover, -⟩ := requiredBlocks_spec hlen
  have hrpos : 0 < requiredBlocks offset data.length := by
    by_contra hz
    rw [Nat.eq_zero_of_not_pos hz] at hcover
    omega
  have hcount := h.count
  obtain ⟨e', s₁, hr, hd, hroot, hfirst, hsize, hbc, hc, hkeep⟩ := h.shrunk hrpos (by omega)
  rw [← hfirst] at hc
  have hsub : ∀ x ∈ l.take (requiredBlocks offset data.length), x ∈ l :=
    fun x hx => List.mem_of_mem_take hx
  have hl : ∀ x ∈ l, x < 20480 := fun x hx => h.lt_of_mem (List.mem_append_left _ hx)
  have htake : (l.take (requiredBlocks offset data.length)).length =
      requiredBlocks offset data.length := List.length_take_of_le (by omega)
  obtain ⟨s', hw, hs', hfind, hc', -⟩ := h.write_of_resize hlen hr
    (by rw [hbc]; exact lt_of_le_of_lt hmax (by decide)) hd hroot hc
    (fun x hx => hl x (hsub x hx)) (by rwa [htake])
    (fun x hx => ⟨hkeep x (h.dir_spec hx).1 (h.dir_spec hx).2.1,
      fun hm => (h.dir_spec hx).2.1 (hsub x hm)⟩) now
  have hstored : (if e'.name = path.name then e'.written now (offset + data.length)
      else e).firstBlock = e'.firstBlock := by
    split_ifs
    · exact e'.firstBlock_written now _
    · exact hfirst.symm
  rw [← hstored] at hc'
  rw [overlaysOnly_iff_readAll hw h.readAll, readAll_eq hfind hs' hc' fun x hx => hl x (hsub x hx),
    Call.pure_inj, Except.ok.injEq]
  intro heq
  have hlens := congrArg List.length heq
  rw [length_window, length_overlaid, length_window, htake] at hlens
  have hshort := hlens ▸ min_le_right _ _
  exact absurd ((le_max_left _ _).trans hshort) (Nat.not_le.mpr (h.lt_fileSize hlt))

/-- A write for which the file gets the blocks it needs: the old content stays, and the gap before
the data is as the blocks have it. -/
theorem overlaysOnly_iff_of_refit (h : FileAt s path e b dir l free)
    (hlen : offset + data.length ≤ maxFileBlocks * pageSize) (hdata : data ≠ []) {required : ℕ}
    (hreq : requiredBlocks offset data.length = required) (hle : l.length ≤ required)
    (hone : l.length < required → l.length ≤ 1) (hfree : required - l.length ≤ free.length)
    (hroom : required - l.length ≤ s.sb.freeBlocks.toNat) :
    OverlaysOnly s now path offset data ↔ (fitEntry s e required).name = path.name ∧
      BlankGap s.disk e l free required offset := by
  have hpos := List.length_pos_iff.mpr hdata
  obtain ⟨hmax, hcover, hleast⟩ := requiredBlocks_spec hlen
  rw [hreq] at hmax hcover hleast
  have hrpos : 0 < required := by
    by_contra hz
    rw [Nat.eq_zero_of_not_pos hz] at hcover
    omega
  obtain ⟨taken, rest, tail, s₁, hsplit, htaken, htail, hrefit, hc⟩ :=
    h.refit hrpos hmax hle hone hfree hroom
  have hsub : ∀ x ∈ l ++ taken ++ tail, x ∈ l ++ free := by
    intro x hx
    rw [hsplit]
    rw [hsplit] at htail
    rcases List.mem_append.mp hx with hx | hx
    · rw [← List.append_assoc]
      exact List.mem_append_left _ hx
    · exact List.mem_append_right _ (htail hx)
  have hblocks : ∀ x ∈ l ++ taken ++ tail, x < 20480 := fun x hx => h.lt_of_mem (hsub x hx)
  have hcount := blockCount_fitEntry s e (lt_of_le_of_lt hmax (by decide))
  have hdir : ∀ x ∈ dir, s₁.disk.block x = s.disk.block x ∧ x ∉ l ++ taken ++ tail := by
    intro x hx
    obtain ⟨h0, hl, hf⟩ := h.dir_spec hx
    have hout : x ∉ l ++ taken ++ tail := fun hm => by
      rcases List.mem_append.mp (hsub x hm) with hm | hm
      · exact hl hm
      · exact hf hm
    exact ⟨hrefit.keep x h0 fun hm => hout (List.mem_append_left _ hm), hout⟩
  have hlong : required * pageSize ≤ (l ++ taken ++ tail).length * pageSize := by
    refine Nat.mul_le_mul_right _ ?_
    rw [List.length_append, List.length_append]
    omega
  obtain ⟨s', hw, hs', hfind, hc', hbytes⟩ := h.write_of_resize hlen (by rw [hreq]; exact hrefit.returns)
    (by rw [hcount]; exact lt_of_le_of_lt hmax (by decide)) hrefit.sized hrefit.root hc hblocks
    (hcover.trans hlong) hdir now
  rw [overlaysOnly_iff_readAll hw h.readAll]
  have hlens : (l ++ taken).length = required := by
    rw [List.length_append]
    omega
  have hsize : e.fileSize ≤ required * pageSize :=
    h.fileSize_le.trans (Nat.mul_le_mul_right _ hle)
  have hbyte : ∀ p < required * pageSize, fileByte s₁.disk (l ++ taken ++ tail) p =
      if Kept l required p then fileByte s.disk (l ++ free) p else 0 := by
    intro p hp
    rw [← hlens] at hp
    rw [fileByte_append _ _ _ hp, hsplit, ← List.append_assoc, fileByte_append _ _ _ hp]
    rw [hlens] at hp
    exact hrefit.bytes p hp
  by_cases hname : (fitEntry s e required).name = path.name
  · have hwritten : ((fitEntry s e required).written now (offset + data.length)).fileSize =
        max e.fileSize (offset + data.length) := by
      have hend : offset + data.length < 2 ^ 32 := by
        simp only [maxFileBlocks, pageSize, blockSize] at hlen
        omega
      rw [DirEntry.fileSize_written _ _ _ hend, fileSize_fitEntry]
    have hsame : ∀ p < e.fileSize,
        fileByte s₁.disk (l ++ taken ++ tail) p = fileByte s.disk l p := by
      intro p hp
      have hpl := hp.trans_le h.fileSize_le
      have hkept : Kept l required p :=
        Or.inl (Nat.div_lt_of_lt_mul (by rwa [Nat.mul_comm]))
      rw [hbyte p (hp.trans_le hsize), if_pos hkept, fileByte_append _ _ _ hpl]
    have hbytes : ∀ p < max e.fileSize (offset + data.length),
        fileByte s'.disk (l ++ taken ++ tail) p =
          patch (fileByte s₁.disk (l ++ taken ++ tail)) offset data p :=
      fun p hp => hbytes p (hp.trans_le ((max_le hsize hcover).trans hlong))
    rw [if_pos hname] at hfind
    rw [← (fitEntry s e required).firstBlock_written now (offset + data.length)] at hc'
    rw [readAll_eq hfind hs' hc' hblocks, hwritten,
      min_eq_left ((max_le hsize hcover).trans hlong), Call.pure_inj, Except.ok.injEq, overlaid,
      length_window, window_inj, and_iff_right hname,
      forall₂_congr fun p hp => Eq.congr_left (hbytes p hp), patch_eq_patch_window_iff hsame]
    refine forall₃_congr fun p _ hp => ?_
    rw [hbyte p (by omega)]
    split_ifs with hk
    · exact (imp_iff_right hk).symm
    · exact iff_of_true rfl fun hkept => absurd hkept hk
  · -- The directory still has the old entry, and the file ends where it did.
    have hmore : l.length < required := by
      refine lt_of_le_of_ne hle fun heq => hname ?_
      rw [h.fitEntry_same heq hrpos]
      exact h.name_eq
    have hshort : e.fileSize < offset + data.length := by
      have hmono : l.length * pageSize ≤ (required - 1) * pageSize :=
        Nat.mul_le_mul_right _ (by omega)
      have hold := h.fileSize_le
      omega
    obtain ⟨l', hold, hl'⟩ : ∃ l', Chain (nextOf s'.disk) 0 e.firstBlock l' ∧
        ∀ x ∈ l', x < 20480 := by
      by_cases hf : e.firstBlock = 0
      · rw [hf]
        exact ⟨[], .nil, by simp⟩
      · rw [firstBlock_fitEntry s required hf] at hc'
        exact ⟨_, hc', hblocks⟩
    rw [if_neg hname] at hfind
    refine iff_of_false ?_ fun hc => hname hc.1
    rw [readAll_eq hfind hs' hold hl', Call.pure_inj, Except.ok.injEq]
    intro heq
    have hlens := congrArg List.length heq
    rw [length_window, length_overlaid, length_window] at hlens
    have hle := hlens ▸ min_le_left _ _
    exact absurd ((le_max_right _ _).trans hle) (Nat.not_le.mpr hshort)

end FileAt

/-- The file has the blocks for the write, or it has one at most and the free list has the rest. -/
def GetsBlocks (s : State) (e : DirEntry) (free : List ℕ) (required : ℕ) : Prop :=
  e.blockCount < required → e.blockCount ≤ 1 ∧
    required - e.blockCount ≤ s.sb.freeBlocks.toNat ∧ required - e.blockCount ≤ free.length

/-- More blocks do not change the string that the entry is found by, which a full name field makes
run on into `first_block` and `block_count`. -/
def NameStays (s : State) (path : Path) (e : DirEntry) (required : ℕ) : Prop :=
  e.blockCount < required →
    if e.firstBlock = 0 then path.name.length < filenameLen ∨ s.sb.firstFreeBlock % 256 = 0
    else path.name.length < 12

/-- When a write changes its own range only: it cuts off no block, and if it gets the blocks that it
needs, the file is found again and has zeros up to the data. -/
def KeepsRange (s : State) (path : Path) (e : DirEntry) (l free : List ℕ) (offset size : ℕ) : Prop :=
  e.blockCount ≤ requiredBlocks offset size ∧
    (GetsBlocks s e free (requiredBlocks offset size) →
      NameStays s path e (requiredBlocks offset size) ∧
        BlankGap s.disk e l free (requiredBlocks offset size) offset)

theorem FileAt.name_fitEntry_iff (h : FileAt s path e b dir l free) {required : ℕ}
    (hpos : 0 < required) (hmax : required ≤ maxFileBlocks) (hle : e.blockCount ≤ required)
    (hget : GetsBlocks s e free required) :
    (fitEntry s e required).name = path.name ↔ NameStays s path e required := by
  have hcount := h.count
  rcases Nat.lt_or_eq_of_le hle with hlt | heq
  swap
  · rw [h.fitEntry_same (hcount.trans heq) hpos]
    exact iff_of_true h.name_eq fun hlt => absurd hlt (heq ▸ Nat.lt_irrefl _)
  obtain ⟨hone, -, hfree⟩ := hget hlt
  unfold NameStays
  rw [imp_iff_right hlt, ← h.name_eq, DirEntry.name_eq_iff]
  split_ifs with hf
  · -- The name ends before `first_block` or at its low byte.
    have hfirst : (fitEntry s e required).firstBlock = s.sb.firstFreeBlock := by
      have hne : s.sb.firstFreeBlock ≠ 0 := fun hz => by
        rw [h.freeChain.eq_stop_iff.mp hz, List.length_nil] at hfree
        omega
      have hmem := h.lt_of_mem (List.mem_append_right l (h.freeChain.head_mem hne))
      rw [fitEntry, if_pos hf, DirEntry.firstBlock_setBlockCount,
        DirEntry.firstBlock_setFirstBlock _ (by omega)]
    have hsame : e.SameName (fitEntry s e required) :=
      (e.sameName_setFirstBlock _).trans (DirEntry.sameName_setBlockCount _ _)
    have hzero : e.bytes.byteAt filenameLen = 0 := e.byteAt_first_eq_zero_iff.mpr (by rw [hf])
    have hiff := (fitEntry s e required).byteAt_first_eq_zero_iff
    have hle := DirEntry.length_name_le hzero
    rw [hfirst] at hiff
    rw [← hiff]
    constructor
    · intro hk
      rcases Nat.lt_or_eq_of_le hle with hlt | heq
      · exact Or.inl hlt
      · exact Or.inr ((hk filenameLen heq.ge).trans hzero)
    · intro hstays k hk
      rcases Nat.lt_or_eq_of_le (hk.trans hle) with hlt | rfl
      · exact hsame k hlt
      · rcases hstays with hshort | hfit
        · exact absurd hshort (Nat.not_lt.mpr hk)
        · rw [hfit, hzero]
  · -- The name ends before `block_count` or runs on into it.
    have hlong : e.blockCount = 1 := by
      have hne : l ≠ [] := fun hnil => hf (h.firstBlock_eq_zero_iff.mpr hnil)
      have hpos := List.length_pos_iff.mpr hne
      omega
    have hsame : ∀ k < 12, (fitEntry s e required).bytes.byteAt k = e.bytes.byteAt k := by
      intro k hk
      rw [fitEntry, if_neg hf, e.setFirstBlock_self, DirEntry.setBlockCount, Vector.byteAt_copyAt,
        if_neg (by omega)]
    constructor
    · intro hk
      by_contra hge
      have hbyte := hk 12 (Nat.not_lt.mp hge)
      rw [DirEntry.byteAt_count, DirEntry.byteAt_count, hlong,
        blockCount_fitEntry s e (lt_of_le_of_lt hmax (by decide)), ← UInt8.toNat_inj,
        UInt8.toNat_ofNat', UInt8.toNat_ofNat'] at hbyte
      simp only [maxFileBlocks] at hmax
      omega
    · exact fun hshort k hk => hsame k (lt_of_le_of_lt hk hshort)

/-- A write changes its own range of the file only, exactly when `KeepsRange` holds. -/
theorem overlaysOnly_iff (h : FileAt s path e b dir l free)
    (hlen : offset + data.length ≤ maxFileBlocks * pageSize) (hdata : data ≠ []) :
    OverlaysOnly s now path offset data ↔ KeepsRange s path e l free offset data.length := by
  have hpos := List.length_pos_iff.mpr hdata
  obtain ⟨hmax, hcover, -⟩ := requiredBlocks_spec hlen
  have hcount := h.count
  obtain ⟨required, hreq⟩ : ∃ n, requiredBlocks offset data.length = n := ⟨_, rfl⟩
  unfold KeepsRange
  rcases lt_or_ge (requiredBlocks offset data.length) e.blockCount with hcut | hle
  · exact iff_of_false (h.not_overlaysOnly hlen hdata hcut) fun hk => Nat.not_le.mpr hcut hk.1
  rw [and_iff_right hle]
  rw [hreq] at hmax hcover hle ⊢
  have hrpos : 0 < required := by
    by_contra hz
    rw [Nat.eq_zero_of_not_pos hz] at hcover
    omega
  by_cases hget : GetsBlocks s e free required
  · rw [imp_iff_right hget, ← h.name_fitEntry_iff hrpos hmax hle hget]
    unfold GetsBlocks at hget
    exact h.overlaysOnly_iff_of_refit hlen hdata hreq (by omega) (by omega) (by omega) (by omega)
  · refine iff_of_true (fun s' old hw => ?_) fun hc => absurd hc hget
    unfold simplefsWrite at hw
    simp only [h.found, pure_bind, hreq, if_neg (Nat.not_lt.mpr hmax)] at hw
    obtain ⟨⟨r, s₁⟩, hr, hw⟩ := Call.bind_eq_pure.mp hw
    cases r with
    | none =>
      simp only [Call.pure_inj, Prod.mk.injEq, ENOSPC] at hw
      omega
    | some e' =>
      have hroom := fun hlt => h.room hlt hr
      exact absurd (fun hlt => ⟨hcount ▸ (hroom hlt).1, (hroom hlt).2⟩) hget

end overlays

theorem fileAt_twoBlockFile : FileAt twoBlockFile pathA entryA 1 [1] [2, 3] [] where
  sized := sized_twoBlockFile
  found := findEntry_twoBlockFile
  dirChain := dir_twoBlockFile
  fileChain := file_twoBlockFile
  freeChain := .nil
  count := by decide
  fits := by decide
  file_free := by simp
  dir_file := by simp
  dir_free := by simp
  onDisk := by decide

/-- Writing the first byte of a file with two blocks cuts off the second one. -/
theorem not_overlaysOnly_twoBlockFile :
    FileAt twoBlockFile pathA entryA 1 [1] [2, 3] [] ∧ 0 + [65].length ≤ maxFileBlocks * pageSize ∧
      ¬OverlaysOnly twoBlockFile 0 pathA 0 [65] :=
  ⟨fileAt_twoBlockFile, by decide,
    fileAt_twoBlockFile.not_overlaysOnly (by decide) (by decide) (by decide)⟩

/-- Writing a byte of the second block keeps the rest of the file. -/
theorem overlaysOnly_twoBlockFile : OverlaysOnly twoBlockFile 0 pathA 600 [65] := by
  refine (overlaysOnly_iff fileAt_twoBlockFile (by decide) (by decide)).mpr ⟨by decide, fun _ => ?_⟩
  constructor
  · exact fun hlt => absurd hlt (by decide)
  · have hsize : entryA.fileSize = 1020 := by decide
    intro p hp hlt
    omega

end SimpleFS.Chained
