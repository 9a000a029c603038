import SimpleFS.Chained.Layout

/-! The fields of a block, and the entries of a directory block found by name. -/
namespace SimpleFS.Chained

theorem nextBlockNo_setNextBlockNo (blockData : Block) {b : ℕ} (hb : b < 65536) :
    nextBlockNo (setNextBlockNo blockData b) = b := by
  rw [nextBlockNo, setNextBlockNo, Vector.readLE_copyAt_self _ _ (by decide)]
  exact Nat.mod_eq_of_lt hb

theorem nextBlockNo_lt (blockData : Block) : nextBlockNo blockData < 65536 :=
  Vector.readLE_lt blockData pageSize 2

@[simp] theorem nextBlockNo_zeros : nextBlockNo (Vector.zeros blockSize) = 0 :=
  Vector.readLE_zeros _ _

theorem nextBlockNo_copyTo (sb : SuperBlock) (blockData : Block) :
    nextBlockNo (sb.copyTo blockData) = nextBlockNo blockData := by
  unfold nextBlockNo SuperBlock.copyTo
  iterate 5 rw [Vector.readLE_copyAt_of_disjoint _ _ (Or.inl (by decide))]

/-- An entry of a directory block is not affected by the next pointer. -/
theorem dirAt_setNextBlockNo (blockData : Block) (b : ℕ) {i : ℕ} (hi : i < dirEntriesPerBlock) :
    dirAt (setNextBlockNo blockData b) i = dirAt blockData i := by
  have hi : i < 15 := hi
  unfold dirAt setNextBlockNo
  rw [Vector.slice_copyAt_of_disjoint _ _ (Or.inr _)]
  simp only [dirEntrySize, pageSize, blockSize]
  omega

theorem dirAt_setDirAt (blockData : Block) (e : DirEntry) {i j : ℕ} (hi : i < dirEntriesPerBlock)
    (hj : j < dirEntriesPerBlock) :
    dirAt (setDirAt blockData i e) j = if j = i then e else dirAt blockData j := by
  have hi : i < 15 := hi
  have hj : j < 15 := hj
  unfold dirAt setDirAt
  split_ifs with h
  · subst h
    rw [Vector.slice_copyAt_self]
    simp only [dirEntrySize, blockSize]
    omega
  · rw [Vector.slice_copyAt_of_disjoint _ _ (by simp only [dirEntrySize]; omega)]

theorem nextBlockNo_setDirAt (blockData : Block) (e : DirEntry) {i : ℕ}
    (hi : i < dirEntriesPerBlock) :
    nextBlockNo (setDirAt blockData i e) = nextBlockNo blockData := by
  have hi : i < 15 := hi
  unfold nextBlockNo setDirAt
  rw [Vector.readLE_copyAt_of_disjoint _ _ (Or.inl _)]
  simp only [dirEntrySize, pageSize, blockSize]
  omega

theorem upToZero_eq_iff {f : ℕ → UInt8} {m : ℕ} (hf : ∀ k, m ≤ k → f k = 0) (name : List UInt8) :
    upToZero f m = name ↔
      (∀ k (h : k < name.length), f k = name[k] ∧ name[k] ≠ 0) ∧ f name.length = 0 := by
  induction m generalizing f name with
  | zero =>
    have hz : ∀ k, f k = 0 := fun k => hf k (Nat.zero_le k)
    unfold upToZero
    constructor
    · rintro rfl
      exact ⟨fun k h => absurd h (Nat.not_lt_zero k), hz 0⟩
    · intro ⟨h, _⟩
      cases name with
      | nil => rfl
      | cons x xs =>
        obtain ⟨h1, h2⟩ := h 0 (Nat.succ_pos _)
        exact absurd (h1.symm.trans (hz 0)) h2
  | succ m ih =>
    unfold upToZero
    split_ifs with h0
    · constructor
      · rintro rfl
        exact ⟨fun k h => absurd h (Nat.not_lt_zero k), h0⟩
      · intro ⟨h, _⟩
        cases name with
        | nil => rfl
        | cons x xs =>
          obtain ⟨h1, h2⟩ := h 0 (Nat.succ_pos _)
          exact absurd (h1.symm.trans h0) h2
    · cases name with
      | nil => simp [h0]
      | cons x xs =>
        rw [List.cons.injEq, ih (fun k hk => hf (k + 1) (by omega)) xs]
        constructor
        · intro ⟨hx, h, hend⟩
          subst hx
          refine ⟨fun k hk => ?_, hend⟩
          cases k with
          | zero => exact ⟨rfl, h0⟩
          | succ k => exact h k (Nat.lt_of_succ_lt_succ hk)
        · intro ⟨h, hend⟩
          exact ⟨(h 0 (Nat.succ_pos _)).1, fun k hk => h (k + 1) (Nat.succ_lt_succ hk), hend⟩

theorem cString_eq_iff {n : ℕ} (v : Vector UInt8 n) (off : ℕ) (name : List UInt8) :
    cString v off = name ↔
      (∀ k (h : k < name.length), v.byteAt (off + k) = name[k] ∧ name[k] ≠ 0) ∧
        v.byteAt (off + name.length) = 0 :=
  upToZero_eq_iff (fun k hk => v.byteAt_of_le (by omega)) name

/-- The name of an entry ends within the name field or right after it. -/
def DirEntry.Ended (e : DirEntry) : Prop := ∃ k ≤ filenameLen, e.bytes.byteAt k = 0

namespace DirEntry

variable {e e' : DirEntry}

theorem name_spec (e : DirEntry) :
    (∀ k (h : k < e.name.length), e.bytes.byteAt k = e.name[k] ∧ e.name[k] ≠ 0) ∧
      e.bytes.byteAt e.name.length = 0 := by
  have h := (cString_eq_iff e.bytes 0 e.name).mp rfl
  simpa only [Nat.zero_add] using h

theorem ended_iff : e.Ended ↔ e.name.length ≤ filenameLen := by
  obtain ⟨hbytes, hend⟩ := e.name_spec
  constructor
  · rintro ⟨k, hk, hz⟩
    by_contra hlt
    obtain ⟨h1, h2⟩ := hbytes k (by omega)
    exact h2 (h1.symm.trans hz)
  · intro h
    exact ⟨_, h, hend⟩

theorem used_iff : e.Used ↔ e.name ≠ [] := by
  obtain ⟨hbytes, hend⟩ := e.name_spec
  constructor
  · intro h hnil
    rw [hnil] at hend
    exact h hend
  · intro h hz
    obtain ⟨h1, h2⟩ := hbytes 0 (List.length_pos_iff.mpr h)
    exact h2 (h1.symm.trans hz)

theorem ended_of_not_used (h : ¬ e.Used) : e.Ended := ⟨0, Nat.zero_le _, not_not.mp h⟩

/-- The bytes up to the end of a name decide it. -/
theorem name_congr (h : ∀ k ≤ e.name.length, e'.bytes.byteAt k = e.bytes.byteAt k) :
    e'.name = e.name := by
  obtain ⟨hbytes, hend⟩ := e.name_spec
  apply (cString_eq_iff e'.bytes 0 e.name).mpr
  simp only [Nat.zero_add]
  refine ⟨fun k hk => ?_, ?_⟩
  · rw [h k hk.le]
    exact hbytes k hk
  · rw [h _ le_rfl]
    exact hend

theorem name_eq_iff : e'.name = e.name ↔ ∀ k ≤ e.name.length, e'.bytes.byteAt k = e.bytes.byteAt k := by
  refine ⟨fun heq k hk => ?_, name_congr⟩
  obtain ⟨hbytes, hend⟩ := e.name_spec
  obtain ⟨hbytes', hend'⟩ := (cString_eq_iff e'.bytes 0 e.name).mp heq
  simp only [Nat.zero_add] at hbytes' hend'
  rcases Nat.lt_or_eq_of_le hk with hlt | rfl
  · rw [(hbytes k hlt).1, (hbytes' k hlt).1]
  · rw [hend, hend']

/-- The name field is the same. -/
def SameName (e e' : DirEntry) : Prop := ∀ k < filenameLen, e'.bytes.byteAt k = e.bytes.byteAt k

/-- A name that still ends within the field or right after it is not touched by a change
of the other fields. -/
theorem name_eq_of_ended (he : e.Ended) (he' : e'.name.length ≤ filenameLen)
    (h : SameName e e') : e'.name = e.name := by
  obtain ⟨hbytes, hend⟩ := e'.name_spec
  refine (name_congr fun k hk => ?_).symm
  by_cases hlt : k < filenameLen
  · exact (h k hlt).symm
  · obtain ⟨j, hj, hz⟩ := he
    have hlen : e'.name.length = filenameLen := by omega
    have hjk : j = filenameLen := by
      by_contra hne
      obtain ⟨h1, h2⟩ := hbytes j (by omega)
      rw [h j (by omega)] at h1
      exact h2 (h1.symm.trans hz)
    have hk : k = filenameLen := by omega
    rw [hk, ← hjk, hz, hjk, ← hlen, hend]

section set

variable (e : DirEntry) (b n : ℕ) (t : Int64)

theorem firstBlock_lt : e.firstBlock < 65536 := Vector.readLE_lt e.bytes 10 2

theorem blockCount_lt : e.blockCount < 65536 := Vector.readLE_lt e.bytes 12 2

theorem firstBlock_setFirstBlock {b : ℕ} (hb : b < 65536) : (e.setFirstBlock b).firstBlock = b :=
  (Vector.readLE_copyAt_self _ _ (by decide)).trans (Nat.mod_eq_of_lt hb)

@[simp] theorem blockCount_setFirstBlock : (e.setFirstBlock b).blockCount = e.blockCount :=
  Vector.readLE_copyAt_of_disjoint _ _ (by decide)

@[simp] theorem firstBlock_setBlockCount : (e.setBlockCount n).firstBlock = e.firstBlock :=
  Vector.readLE_copyAt_of_disjoint _ _ (by decide)

theorem blockCount_setBlockCount : (e.setBlockCount n).blockCount = n % 65536 :=
  Vector.readLE_copyAt_self _ _ (by decide)

@[simp] theorem firstBlock_setFileSize : (e.setFileSize n).firstBlock = e.firstBlock :=
  Vector.readLE_copyAt_of_disjoint _ _ (by decide)

@[simp] theorem blockCount_setFileSize : (e.setFileSize n).blockCount = e.blockCount :=
  Vector.readLE_copyAt_of_disjoint _ _ (by decide)

@[simp] theorem firstBlock_setMtime : (e.setMtime t).firstBlock = e.firstBlock :=
  Vector.readLE_copyAt_of_disjoint _ _ (by decide)

@[simp] theorem blockCount_setMtime : (e.setMtime t).blockCount = e.blockCount :=
  Vector.readLE_copyAt_of_disjoint _ _ (by decide)

theorem sameName_setFirstBlock : SameName e (e.setFirstBlock b) := by
  intro k hk
  simp only [filenameLen] at hk
  rw [setFirstBlock, Vector.byteAt_copyAt, if_neg (by omega)]

theorem sameName_setBlockCount : SameName e (e.setBlockCount n) := by
  intro k hk
  simp only [filenameLen] at hk
  rw [setBlockCount, Vector.byteAt_copyAt, if_neg (by omega)]

theorem sameName_setFileSize : SameName e (e.setFileSize n) := by
  intro k hk
  simp only [filenameLen] at hk
  rw [setFileSize, Vector.byteAt_copyAt, if_neg (by omega)]

theorem sameName_setMtime : SameName e (e.setMtime t) := by
  intro k hk
  simp only [filenameLen] at hk
  rw [setMtime, Vector.byteAt_copyAt, if_neg (by omega)]

theorem sameName_setFields {e' : DirEntry} (h : SameName e e') :
    SameName e ((e'.setFileSize n).setMtime t) :=
  fun k hk => (sameName_setMtime _ t k hk).trans ((sameName_setFileSize e' n k hk).trans (h k hk))

theorem byteAt_first (e : DirEntry) : e.bytes.byteAt filenameLen = UInt8.ofNat e.firstBlock := by
  have h := Vector.leByte_leValue (fun i => e.bytes.byteAt (10 + i)) (w := 2) (i := 0) (by decide)
  rw [Vector.leByte, pow_zero, Nat.div_one] at h
  exact h.symm

/-- A full name ends where the number of the first block is a multiple of 256. -/
theorem byteAt_first_eq_zero_iff : e.bytes.byteAt filenameLen = 0 ↔ e.firstBlock % 256 = 0 := by
  rw [byteAt_first, ← UInt8.toNat_inj, UInt8.toNat_ofNat']
  rfl

theorem byteAt_fileSizeHigh (e : DirEntry) :
    e.bytes.byteAt 19 = UInt8.ofNat (e.fileSize / 2 ^ 24) := by
  have h := Vector.leByte_leValue (fun i => e.bytes.byteAt (16 + i)) (w := 4) (i := 3) (by decide)
  rw [Vector.leByte, show 256 ^ 3 = 2 ^ 24 by decide] at h
  exact h.symm

theorem byteAt_count (e : DirEntry) : e.bytes.byteAt 12 = UInt8.ofNat e.blockCount := by
  have h := Vector.leByte_leValue (fun i => e.bytes.byteAt (12 + i)) (w := 2) (i := 0) (by decide)
  rw [Vector.leByte, pow_zero, Nat.div_one] at h
  exact h.symm

theorem byteAt_countHigh (e : DirEntry) : e.bytes.byteAt 13 = UInt8.ofNat (e.blockCount / 256) := by
  have h := Vector.leByte_leValue (fun i => e.bytes.byteAt (12 + i)) (w := 2) (i := 1) (by decide)
  rw [Vector.leByte, pow_one] at h
  exact h.symm

theorem length_name_le {e : DirEntry} {k : ℕ} (h : e.bytes.byteAt k = 0) : e.name.length ≤ k := by
  obtain ⟨hbytes, -⟩ := e.name_spec
  by_contra hlt
  obtain ⟨h1, h2⟩ := hbytes k (by omega)
  exact h2 (h1.symm.trans h)

/-- With less than 256 blocks the name ends before the high byte of their number. -/
theorem length_name_lt {e : DirEntry} (h : e.blockCount < 256) : e.name.length < 14 := by
  have hz : e.bytes.byteAt 13 = 0 := by rw [byteAt_countHigh, Nat.div_eq_of_lt h]; rfl
  exact Nat.lt_succ_of_le (length_name_le hz)

theorem ended_of_firstBlock {e : DirEntry} (h : e.firstBlock % 256 = 0) : e.Ended :=
  ⟨filenameLen, le_rfl, e.byteAt_first_eq_zero_iff.mpr h⟩

/-- The name is the same when the number of the first block is. -/
theorem name_eq_of_sameName {e e' : DirEntry} (he : e.Ended) (h : e.SameName e')
    (hfirst : e'.firstBlock = e.firstBlock) : e'.name = e.name := by
  have hlen := ended_iff.mp he
  refine name_congr fun k hk => ?_
  by_cases hlt : k < filenameLen
  · exact h k hlt
  · have hk : k = filenameLen := by omega
    rw [hk, byteAt_first, byteAt_first, hfirst]

theorem SameName.trans {e e' e'' : DirEntry} (h : SameName e e') (h' : SameName e' e'') :
    SameName e e'' :=
  fun k hk => (h' k hk).trans (h k hk)

end set

end DirEntry

theorem byteAt_dirAt (blockData : Block) (i : ℕ) {k : ℕ} (hk : k < dirEntrySize) :
    (dirAt blockData i).bytes.byteAt k = blockData.byteAt (i * dirEntrySize + k) :=
  Vector.byteAt_slice _ _ hk

theorem cString_dirAt {blockData : Block} {i : ℕ} (h : (dirAt blockData i).Ended) :
    cString blockData (i * dirEntrySize) = (dirAt blockData i).name := by
  obtain ⟨hbytes, hend⟩ := (dirAt blockData i).name_spec
  have hlen := DirEntry.ended_iff.mp h
  simp only [filenameLen] at hlen
  apply (cString_eq_iff _ _ _).mpr
  refine ⟨fun k hk => ?_, ?_⟩
  · rw [← byteAt_dirAt _ _ (by simp only [dirEntrySize]; omega)]
    exact hbytes k hk
  · rw [← byteAt_dirAt _ _ (by simp only [dirEntrySize]; omega)]
    exact hend

/-- A directory block whose names all end. -/
def BlockEnded (blockData : Block) : Prop := ∀ i < dirEntriesPerBlock, (dirAt blockData i).Ended

section find

variable {blockData : Block} {name : List UInt8} {i : ℕ}

theorem findName_eq_some (h : BlockEnded blockData) :
    findName blockData name = some i ↔ i < dirEntriesPerBlock ∧ (dirAt blockData i).name = name ∧
      ∀ j < i, (dirAt blockData j).name ≠ name := by
  unfold findName
  rw [List.find?_range_eq_some]
  simp only [decide_eq_true_eq, List.mem_range, Bool.not_eq_eq_eq_not, Bool.not_true,
    decide_eq_false_iff_not]
  constructor
  · rintro ⟨hn, hi, hj⟩
    exact ⟨hi, cString_dirAt (h i hi) ▸ hn, fun j hlt =>
      cString_dirAt (h j (hlt.trans hi)) ▸ hj j hlt⟩
  · rintro ⟨hi, hn, hj⟩
    refine ⟨(cString_dirAt (h i hi)).trans hn, hi, fun j hlt => ?_⟩
    rw [cString_dirAt (h j (hlt.trans hi))]
    exact hj j hlt

/-- A string that fits in an entry is the name of a slot when it is that of the entry in it. -/
theorem cString_dirAt_iff (h : name.length < dirEntrySize) :
    cString blockData (i * dirEntrySize) = name ↔ (dirAt blockData i).name = name := by
  unfold DirEntry.name
  rw [cString_eq_iff, cString_eq_iff, Nat.zero_add, byteAt_dirAt _ _ h]
  refine and_congr_left fun _ => forall₂_congr fun k hk => ?_
  rw [Nat.zero_add, byteAt_dirAt _ _ (hk.trans h)]

theorem findName_eq_some_iff (h : name.length < dirEntrySize) :
    findName blockData name = some i ↔ i < dirEntriesPerBlock ∧ (dirAt blockData i).name = name ∧
      ∀ j < i, (dirAt blockData j).name ≠ name := by
  unfold findName
  rw [List.find?_range_eq_some]
  simp only [decide_eq_true_eq, List.mem_range, Bool.not_eq_eq_eq_not, Bool.not_true,
    decide_eq_false_iff_not, cString_dirAt_iff h]
  exact and_left_comm

theorem findFree_eq_some :
    findFree blockData = some i → i < dirEntriesPerBlock ∧ ¬ (dirAt blockData i).Used := by
  unfold findFree
  rw [List.find?_range_eq_some]
  rintro ⟨hz, hi, -⟩
  refine ⟨List.mem_range.mp hi, fun hu => hu ?_⟩
  rw [byteAt_dirAt _ _ (by decide)]
  exact of_decide_eq_true hz

/-- An entry is stored where it was found, or its name has run on into another field and it is not
stored at all. -/
theorem storeEntry_eq (h : BlockEnded blockData) (hfind : findName blockData name = some i)
    {e : DirEntry} (he : (dirAt blockData i).SameName e) :
    (e.name = name ∧ storeEntry blockData e.name e = setDirAt blockData i e) ∨
      (e.name ≠ name ∧ storeEntry blockData e.name e = blockData) := by
  obtain ⟨hi, hname, hbefore⟩ := (findName_eq_some h).mp hfind
  by_cases heq : e.name = name
  · refine Or.inl ⟨heq, ?_⟩
    unfold storeEntry
    simp only [heq, hfind]
  · refine Or.inr ⟨heq, ?_⟩
    unfold storeEntry
    cases hf : findName blockData e.name with
    | none => rfl
    | some j =>
      obtain ⟨hj, hnj, -⟩ := (findName_eq_some h).mp hf
      have hlen : e.name.length ≤ filenameLen := by
        rw [← hnj]
        exact DirEntry.ended_iff.mp (h j hj)
      exact absurd ((DirEntry.name_eq_of_ended (h i hi) hlen he).trans hname) heq

theorem nextBlockNo_storeEntry (e : DirEntry) :
    nextBlockNo (storeEntry blockData name e) = nextBlockNo blockData := by
  unfold storeEntry
  cases hf : findName blockData name with
  | none => rfl
  | some i =>
    have hi : i < dirEntriesPerBlock := by
      unfold findName at hf
      exact List.mem_range.mp (List.mem_of_find?_eq_some hf)
    exact nextBlockNo_setDirAt _ _ hi

end find

end SimpleFS.Chained
