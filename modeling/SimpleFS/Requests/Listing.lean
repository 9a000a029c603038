import SimpleFS.Image.DirUpdates
import SimpleFS.Requests.Format

/-! Reading a directory whose blocks hold any bytes. The length byte of a slot is not checked
against the name field. -/
namespace SimpleFS

/-- Every entry can be listed, any name can be looked for, and the search finds the first entry
that is listed with the name. -/
def ReadsAlike (d : Disk) (dir : Inode) : Prop :=
  ∃ entries, dirLookup d dir = some entries ∧ (∀ s ∈ entries, s.1.nameStr ≠ none) ∧
    ∀ name, dirFind d dir name = some (entries.find? fun s => s.1.named name)

theorem DirEntry.nameStr_ne_none {e : DirEntry} : e.nameStr ≠ none ↔ e.nameLen.toNat ≤ 28 := by
  unfold nameStr
  split_ifs with h
  · simpa using h
  · simpa using h

section

variable {d : Disk} {dir : Inode}

theorem ReadsAlike.nameLen_le (hd : d.Sized) (hb : dir.OnDisk d) (h : ReadsAlike d dir) :
    ∀ s ∈ dir.slots d, s.1.nameLen.toNat ≤ 28 := by
  obtain ⟨entries, hlookup, hread, -⟩ := h
  rw [dirLookup_eq hd hb, Option.some.injEq] at hlookup
  subst hlookup
  intro s hs
  cases he : s.1.isEmpty with
  | true =>
    have hz : s.1.nameLen = 0 := beq_iff_eq.mp he
    rw [hz]
    exact Nat.zero_le _
  | false => exact DirEntry.nameStr_ne_none.mp (hread s (List.mem_filter.mpr ⟨hs, by rw [he]; rfl⟩))

/-- Listing and searching are safe and agree exactly on the directories in which no length byte
exceeds the name field, whatever else their blocks hold. -/
theorem readsAlike_iff (hd : d.Sized) (hb : dir.OnDisk d) :
    ReadsAlike d dir ↔ ∀ s ∈ dir.slots d, s.1.nameLen.toNat ≤ 28 := by
  refine ⟨fun h => h.nameLen_le hd hb, fun h => ?_⟩
  have hread : ∀ e ∈ dir.entries d, e.nameStr ≠ none := by
    intro e he
    obtain ⟨s, hs, rfl⟩ := List.mem_map.mp (Inode.mem_entries.mp he).1
    exact DirEntry.nameStr_ne_none.mpr (h s hs)
  refine ⟨_, dirLookup_eq hd hb, ?_, ?_⟩
  · intro s hs
    exact DirEntry.nameStr_ne_none.mpr (h s (List.mem_filter.mp hs).1)
  · intro name
    rw [dirFind_of_readable hd hb hread, List.find?_filter]
    congr 2
    funext s
    cases s.1.isEmpty <;> simp

end

/-- A directory whose one block is the first data block. -/
def oneBlockDir : Inode :=
  { Inode.newDir 500 0 with
    blockCount := 1
    directBlocks := #v[31, 0, 0, 0, 0, 0, 0, 0, 0, 0] }

theorem mem_blocks_oneBlockDir {d : Disk} {b : ℕ} : b ∈ oneBlockDir.blocks d ↔ b = 31 := by
  rw [Inode.mem_blocks]
  constructor
  · rintro ⟨-, k, hk, rfl⟩
    obtain rfl : k = 0 := Nat.lt_one_iff.mp hk
    rfl
  · rintro rfl
    exact ⟨by decide, 0, by decide, rfl⟩

theorem onDisk_oneBlockDir (d : Disk) : oneBlockDir.OnDisk d := by
  intro b hb
  rcases Inode.mem_refs.mp hb with hb | ⟨hi, -⟩
  · rw [mem_blocks_oneBlockDir.mp hb]
    decide
  · exact absurd rfl hi

theorem sized_empty : Disk.empty.Sized := rfl

theorem readsAlike_zeros : ReadsAlike Disk.empty oneBlockDir :=
  (readsAlike_iff sized_empty (onDisk_oneBlockDir _)).mpr (by
    rintro ⟨e, b, off⟩ hs
    obtain ⟨-, -, rfl⟩ := Inode.mem_slots hs
    rw [Disk.block_empty, DirEntry.fromBytes_zeros]
    show (0 : UInt8).toNat ≤ 28
    decide)

/-- The image in which the first slot of block 31 claims a name of 29 bytes. -/
def longNameDisk : Disk := Disk.empty.writeBlock 31 ((Vector.zeros blockSize).copyAt 5 1 fun _ => 29)

/-- A length byte of 29 makes the listing panic. -/
theorem not_readsAlike_longName :
    longNameDisk.Sized ∧ oneBlockDir.OnDisk longNameDisk ∧ ¬ReadsAlike longNameDisk oneBlockDir := by
  have hd : longNameDisk.Sized := sized_empty.writeBlock (by decide) _
  refine ⟨hd, onDisk_oneBlockDir _, fun h => ?_⟩
  have hslot : (DirEntry.fromBytes ((longNameDisk.block 31).slice (0 * 34) dirEntrySize), 31, 0 * 34) ∈
      oneBlockDir.slots longNameDisk :=
    List.mem_flatMap.mpr ⟨31, mem_blocks_oneBlockDir.mpr rfl, mem_blockSlots.mpr ⟨0, by decide, rfl⟩⟩
  have hle := h.nameLen_le hd (onDisk_oneBlockDir _) _ hslot
  have hlen : (DirEntry.fromBytes
      ((longNameDisk.block 31).slice (0 * 34) dirEntrySize)).nameLen = 29 := by
    show ((longNameDisk.block 31).slice (0 * 34) dirEntrySize).byteAt 5 = 29
    rw [longNameDisk, Disk.block_writeBlock_self, Vector.byteAt_slice _ _ (by decide),
      Vector.byteAt_copyAt, if_pos (by decide)]
  rw [hlen] at hle
  exact absurd hle (by decide)

end SimpleFS
