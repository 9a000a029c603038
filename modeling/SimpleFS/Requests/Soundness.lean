import SimpleFS.Requests.Format
import SimpleFS.Requests.Returns

/-! The two invariants of the file system: blocks have one owner, and the directories make a
tree. Every request that is answered preserves them. -/
namespace SimpleFS

/-- The superblock is the one on the disk, blocks below the data area and blocks with inode records
are taken, and every block of an inode in use is its own. -/
structure BlockSound (fs : Fs) : Prop extends Consistent fs where
  synced : fs.Synced
  counted : fs.sb.freeBlocks.toNat =
    ((Finset.range 20480).filter fun b => fs.disk.bit b = false).card
  mapped : fs.disk.AllMapped
  reserved : Reserved fs.disk

/-- The free count and the sum that requests keep. -/
theorem counted_iff_balance {fs : Fs} : fs.sb.freeBlocks.toNat =
    ((Finset.range 20480).filter fun b => fs.disk.bit b = false).card ↔ fs.balance = 20480 := by
  have hsum := Finset.card_filter_add_card_filter_not (s := Finset.range 20480)
    fun b => fs.disk.bit b = true
  simp only [Bool.not_eq_true, Finset.card_range] at hsum
  have hbalance : fs.balance.toNat =
      (fs.sb.freeBlocks.toNat + fs.disk.usedCount) % 2 ^ 32 := by
    rw [Fs.balance, UInt32.toNat_add, UInt32.toNat_ofNat']
    omega
  have hlt := fs.sb.freeBlocks.toNat_lt
  rw [← UInt32.toNat_inj, hbalance]
  show _ ↔ _ = 20480
  rw [Disk.usedCount]
  omega

theorem Formatted.blockSound {d : Disk} {now : Int64} {taken : ℕ → Bool} {fs : Fs}
    (h : Formatted d now taken fs) (hb : d.Blank) (hr : ∀ b, IsRecordBlock b → taken b = true) :
    BlockSound fs where
  toConsistent := h.consistent hb
  synced := h.synced
  counted := counted_iff_balance.mpr h.balance
  mapped _ hn := h.mapped hb hn
  reserved b hb := (h.bit b hb.lt).trans (hr b hb)

theorem Formatted.readable_root {d : Disk} {now : Int64} {taken : ℕ → Bool} {fs : Fs}
    (h : Formatted d now taken fs) : fs.disk.Readable 1 := by
  intro e he
  rw [h.entries_root] at he
  rcases List.mem_pair.mp he with rfl | rfl
  · rw [DirEntry.nameStr_new]
    simp
  · rw [DirEntry.nameStr_new]
    simp

/-- There are sound states of any number of free blocks up to 57. -/
theorem exists_sound (free : List ℕ) (hn : free.Nodup) (hr : ∀ b ∈ free, 32 ≤ b ∧ b < 89) :
    ∃ fs, Formatted .empty 0 (fun b => !decide (b ∈ free)) fs ∧ BlockSound fs ∧
      TreeSound fs.disk := by
  obtain ⟨fs, h⟩ := exists_formatted 0 free hn fun b hb =>
    ⟨(hr b hb).1, (hr b hb).2.trans (by decide)⟩
  refine ⟨fs, h, h.blockSound Disk.blank_empty fun b hb => ?_, h.treeSound Disk.blank_empty⟩
  have hnot : b ∉ free := fun hmem => by
    obtain ⟨n, hno, rfl⟩ := hb
    have := hr _ hmem
    unfold recordBlock at this
    rcases hno with rfl | ⟨hlo, hhi⟩ | ⟨hlo, hhi⟩ <;> omega
  simpa using hnot

theorem Change.blockSound {fs fs' : Fs} (h : Change fs fs') (hs : BlockSound fs) :
    BlockSound fs' where
  toConsistent := h.consistent hs.toConsistent
  synced := h.synced hs.toConsistent hs.mapped hs.synced
  counted := by
    rw [counted_iff_balance, h.balance hs.toConsistent, ← counted_iff_balance]
    exact hs.counted
  mapped := h.allMapped hs.toConsistent hs.mapped
  reserved := h.reserved hs.toConsistent hs.reserved

/-- A request that is answered keeps the blocks sound, and every entry names an inode in use that
no other entry names. -/
theorem blockSound_step {fs fs' : Fs} {r : Request} {now : ℕ → Int64} {reply : Reply}
    (hs : BlockSound fs) (hd : Named fs.disk) (hr : fs.Conforms r)
    (h : fs.handle now r = some (reply, fs')) : BlockSound fs' ∧ Named fs'.disk := by
  have hchange := handle_change hs.toConsistent hd hr (hs.reserved.stepSafe r) h
  exact ⟨hchange.blockSound hs, (hchange.treeChange hs.toConsistent).named hd⟩

theorem entryName_a : EntryName "a".toByteArray := by
  constructor <;> decide

/-- A file can be created where no block is free. -/
theorem blockSound_step_create : ∃ (fs fs' : Fs) (reply : Reply),
    fs.handle (fun _ => 0) (.create 1 "a".toByteArray) = some (reply, fs') ∧
      BlockSound fs' ∧ Named fs'.disk := by
  obtain ⟨fs, h, hs, ht⟩ := exists_sound [] List.nodup_nil (by simp)
  obtain ⟨reply, fs', hcreate⟩ := create_some hs.toConsistent hs.synced h.live_root
    (hs.mapped 1 h.live_root) h.readable_root
    (hs.reserved.stepSafe (.create 1 "a".toByteArray)) fun _ => 0
  have hanswer : fs.handle (fun _ => 0) (.create 1 "a".toByteArray) = some (reply, fs') := by
    rw [Fs.handle, hcreate]
  exact ⟨fs, fs', reply, hanswer, blockSound_step hs ht.toNamed
    (show fs.Conforms (.create 1 "a".toByteArray) from ⟨h.isDirectory_root, entryName_a⟩) hanswer⟩

/-- The directory in which the kernel asks for a name. -/
def Request.parent? : Request → Option ℕ
  | .create parent _ | .mkdir parent _ | .rmdir parent _ | .unlink parent _ => some parent
  | _ => none

/-- A request that is answered keeps the tree sound, and `rmdir` succeeds on directories only that
list nothing but the dots. -/
theorem treeSound_step {fs fs' : Fs} {r : Request} {now : ℕ → Int64} {reply : Reply}
    (hc : Consistent fs) (hres : Reserved fs.disk) (ht : TreeSound fs.disk) (hr : fs.Conforms r)
    (hreach : ∀ p ∈ r.parent?, fs.disk.Reachable p) (h : fs.handle now r = some (reply, fs')) :
    TreeSound fs'.disk ∧ ∀ p name, r = .rmdir p name → reply = .ok →
      ∃ e ∈ fs.disk.listed p, e.named (Fs.nameOr "" name) = true ∧
        fs.disk.IsDirectory e.inode.toNat ∧ fs.disk.listed e.inode.toNat = [] := by
  refine ⟨((handle_change hc ht.toNamed hr (hres.stepSafe r) h).treeChange hc).treeSound ht, ?_⟩
  rintro p name rfl rfl
  obtain ⟨hp, hname⟩ := hr
  cases rmdir_outcome hc hp.1 (ht.live_of_nameOr hp hname) h with
  | gone hn hdir hlen _ =>
    have hlisted := hn.mem_listed hp (hn.proper hname)
    have hchild : fs.disk.IsDirectory _ := ⟨ht.live p _ hlisted, hdir⟩
    refine ⟨_, hlisted, hn.named, hchild, ht.listed_eq_nil ?_ hlen⟩
    exact .child (hreach p rfl) (Disk.mem_children.mpr ⟨_, hlisted, rfl⟩) hchild

/-- A directory can be made where two blocks are free. -/
theorem treeSound_step_mkdir : ∃ (fs fs' : Fs) (reply : Reply),
    fs.handle (fun _ => 0) (.mkdir 1 "a".toByteArray) = some (reply, fs') ∧
      TreeSound fs'.disk := by
  obtain ⟨fs, h, hs, ht⟩ := exists_sound [32, 33] (by decide) (by decide)
  have hsafe := hs.reserved.stepSafe (.mkdir 1 "a".toByteArray)
  obtain ⟨reply, fs', hmkdir⟩ := mkdirAttempt_some hs.toConsistent hs.synced h.live_root
    (hs.mapped 1 h.live_root) h.readable_root hsafe fun _ => 0
  obtain ⟨r, rfl⟩ : ∃ r, reply = some r := by
    cases mkdirAttempt_outcome hs.toConsistent h.live_root hsafe hmkdir with
    | stuck _ _ _ _ hfull _ _ =>
      have hblank := hfull .blank (by rw [h.table_root]; simp [dots])
      cases hblank
    | _ => exact ⟨_, rfl⟩
  have hanswer := Fs.answered_eq_some.mpr hmkdir
  exact ⟨fs, fs', r, hanswer, (treeSound_step (r := .mkdir 1 "a".toByteArray) hs.toConsistent
    hs.reserved ht ⟨h.isDirectory_root, entryName_a⟩
    (fun p hp => Option.some.inj hp ▸ .root h.isDirectory_root) hanswer).1⟩

end SimpleFS
