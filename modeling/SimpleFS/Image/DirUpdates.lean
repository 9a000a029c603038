import SimpleFS.Image.Ownership

/-! What the directory functions find and what they change, on the table of slots. -/
namespace SimpleFS
open Scan Bitmap

/-- An inode as an operation holds it: its blocks are data blocks, nobody's record and all
different. -/
structure Placed (fs : Fs) (i : Inode) : Prop where
  sized : fs.disk.Sized
  layout : Layout fs.sb
  inodeNo : InodeNo i.inodeNo.toNat
  range : ∀ b ∈ i.refs fs.disk, 31 ≤ b ∧ b < 20480 ∧ ¬ IsRecordBlock b
  nodup : (i.refs fs.disk).Nodup

namespace Placed

variable {fs : Fs} {i : Inode}

theorem onDisk (h : Placed fs i) : i.OnDisk fs.disk := fun b hb => (h.range b hb).2.1

theorem readInode (h : Placed fs i) {n : ℕ} (hn : InodeNo n) :
    readInode fs.disk fs.sb n = some (fs.disk.inode n) :=
  h.sized.readInode h.layout hn.recordBlock_lt

end Placed

theorem Owned.placed {fs : Fs} (ho : Owned fs.disk) (hd : fs.disk.Sized) (hl : Layout fs.sb) {n : ℕ}
    (hn : fs.disk.Live n) : Placed fs (fs.disk.inode n) where
  sized := hd
  layout := hl
  inodeNo := by
    rw [Disk.toNat_inodeNo_inode _ (by have := hn.1.le; omega)]
    exact hn.1
  range b hb := by
    obtain ⟨hlow, hlt, -, hr⟩ := ho.range n b (hn.held ▸ hb)
    exact ⟨hlow, hlt, hr⟩
  nodup := hn.held ▸ ho.exclusive.nodup n

theorem Owned.used {d : Disk} (ho : Owned d) {n : ℕ} (hn : d.Live n) :
    ∀ b ∈ (d.inode n).refs d, d.bit b = true :=
  fun b hb => (ho.range n b (hn.held ▸ hb)).2.2.1

theorem matchSlot_eq_none {name : String} {s : Slot} (h : matchSlot name s = some none) :
    s.1.isEmpty = true ∨ s.1.nameStr ≠ none ∧ s.1.named name = false := by
  unfold matchSlot at h
  split_ifs at h with he
  · exact Or.inl he
  · obtain ⟨n, hn, h⟩ := Option.bind_eq_some_iff.mp h
    split_ifs at h with heq
    · simp at h
    · exact Or.inr ⟨by simp [hn], by simp [DirEntry.named, hn, heq]⟩

theorem matchSlot_eq_some {name : String} {s t : Slot} (h : matchSlot name s = some (some t)) :
    t = s ∧ s.1.isEmpty = false ∧ s.1.named name = true := by
  unfold matchSlot at h
  split_ifs at h with he
  · simp at h
  · obtain ⟨n, hn, h⟩ := Option.bind_eq_some_iff.mp h
    split_ifs at h with heq
    · exact ⟨by simpa using h.symm, by simpa using he, by simp [DirEntry.named, hn, heq]⟩
    · simp at h

theorem matchSlot_of_readable {name : String} {s : Slot}
    (h : s.1.isEmpty = false → s.1.nameStr ≠ none) :
    matchSlot name s = some (if !s.1.isEmpty && s.1.named name then some s else none) := by
  unfold matchSlot
  cases he : s.1.isEmpty with
  | true => simp
  | false =>
    obtain ⟨n, hn⟩ := Option.ne_none_iff_exists'.mp (h he)
    by_cases heq : n = name <;> simp [hn, DirEntry.named, heq]

namespace Inode

variable {d : Disk} {dir : Inode} {name : String}

/-- No entry of the directory has the name, and all names can be read. -/
def Lacks (d : Disk) (dir : Inode) (name : String) : Prop :=
  ∀ e ∈ dir.entries d, e.nameStr ≠ none ∧ e.named name = false

theorem mem_entries {e : DirEntry} :
    e ∈ dir.entries d ↔ e ∈ dir.table d ∧ e.isEmpty = false :=
  SlotTable.mem_live

/-- Behind the entries there are only unused slots. -/
theorem entries_of_table {l : List DirEntry} {k : ℕ} (hl : ∀ x ∈ l, x.isEmpty = false)
    (h : dir.table d = l ++ List.replicate k .blank) : dir.entries d = l := by
  have hblank : (List.replicate k DirEntry.blank).filter (fun x => !x.isEmpty) = [] := by
    rw [List.filter_eq_nil_iff]
    intro x hx
    rw [(List.mem_replicate.mp hx).2, DirEntry.isEmpty_blank]
    exact Bool.false_ne_true
  rw [entries, h, SlotTable.live, List.filter_append, hblank, List.append_nil,
    List.filter_eq_self]
  intro x hx
  rw [hl x hx]
  rfl

theorem mem_table_of_slots {e : DirEntry} {p : ℕ × ℕ} (h : (e, p) ∈ dir.slots d) :
    e ∈ dir.table d :=
  List.mem_map_of_mem h

/-- `slot` is the first entry with the name. -/
structure First (d : Disk) (dir : Inode) (name : String) (slot : Slot) (pre post : List Slot) :
    Prop where
  split : dir.slots d = pre ++ slot :: post
  present : slot.1.isEmpty = false
  named : slot.1.named name = true
  before : ∀ s ∈ pre, s.1.isEmpty = true ∨ s.1.named name = false

theorem First.mem_entries {slot : Slot} {pre post : List Slot}
    (h : dir.First d name slot pre post) : slot.1 ∈ dir.entries d := by
  refine Inode.mem_entries.mpr ⟨mem_table_of_slots (p := slot.2) ?_, h.present⟩
  rw [h.split]
  simp

theorem First.find? {slot : Slot} {pre post : List Slot} (h : dir.First d name slot pre post) :
    (dir.slots d).find? (fun s => !s.1.isEmpty && s.1.named name) = some slot := by
  rw [List.find?_eq_some_iff_append]
  refine ⟨by simp [h.present, h.named], pre, post, h.split, fun s hs => ?_⟩
  rcases h.before s hs with hempty | hnot
  · simp [hempty]
  · simp [hnot]

end Inode

section Find

variable {d : Disk} {dir : Inode} {name : String}

theorem dirFind_eq_none (hd : d.Sized) (hb : dir.OnDisk d)
    (h : dirFind d dir name = some none) : dir.Lacks d name := by
  rw [dirFind_eq hd hb] at h
  rcases scanM_eq_some h with ⟨-, hall⟩ | ⟨a, pre, s, post, hr, -⟩
  · intro e he
    obtain ⟨hmem, hne⟩ := Inode.mem_entries.mp he
    obtain ⟨s, hs, rfl⟩ := List.mem_map.mp hmem
    rcases matchSlot_eq_none (hall s hs) with hempty | hread
    · simp [hempty] at hne
    · exact hread
  · simp at hr

theorem dirFind_eq_some (hd : d.Sized) (hb : dir.OnDisk d) {slot : Slot}
    (h : dirFind d dir name = some (some slot)) : ∃ pre post, dir.First d name slot pre post := by
  rw [dirFind_eq hd hb] at h
  rcases scanM_eq_some h with ⟨hr, -⟩ | ⟨a, pre, s, post, hr, hsplit, hs, hpre⟩
  · simp at hr
  · obtain ⟨rfl, hne, hnamed⟩ := matchSlot_eq_some hs
    obtain rfl : slot = a := by simpa using hr
    refine ⟨pre, post, hsplit, hne, hnamed, fun t ht => ?_⟩
    rcases matchSlot_eq_none (hpre t ht) with hempty | hread
    · exact Or.inl hempty
    · exact Or.inr hread.2

/-- With readable names `dir_find` returns, and gives the first entry with the name. -/
theorem dirFind_of_readable (hd : d.Sized) (hb : dir.OnDisk d)
    (hread : ∀ e ∈ dir.entries d, e.nameStr ≠ none) :
    dirFind d dir name =
      some ((dir.slots d).find? fun s => !s.1.isEmpty && s.1.named name) := by
  rw [dirFind_eq hd hb, find?_eq_findSome?]
  apply scanM_pure
  rintro ⟨e, p⟩ hs
  exact matchSlot_of_readable fun hne =>
    hread e (Inode.mem_entries.mpr ⟨Inode.mem_table_of_slots hs, hne⟩)

/-- An entry is found when no other has its name. -/
theorem dirFind_of_mem_entries (hd : d.Sized) (hb : dir.OnDisk d)
    (hread : ∀ e ∈ dir.entries d, e.nameStr ≠ none) {e : DirEntry} (he : e ∈ dir.entries d)
    (hnamed : e.named name = true) (hone : ∀ x ∈ dir.entries d, x.named name = true → x = e) :
    ∃ p, dirFind d dir name = some (some (e, p)) := by
  rw [dirFind_of_readable hd hb hread]
  obtain ⟨hmem, hpresent⟩ := Inode.mem_entries.mp he
  obtain ⟨s, hs, rfl⟩ := List.mem_map.mp hmem
  cases hfound : (dir.slots d).find? fun s => !s.1.isEmpty && s.1.named name with
  | none =>
    have hnot := List.find?_eq_none.mp hfound s hs
    simp [hpresent, hnamed] at hnot
  | some t =>
    have ht := List.find?_some hfound
    simp only [Bool.and_eq_true, Bool.not_eq_true'] at ht
    have hlisted : t.1 ∈ dir.entries d := Inode.mem_entries.mpr
      ⟨Inode.mem_table_of_slots (p := t.2) (List.mem_of_find?_eq_some hfound), ht.1⟩
    exact ⟨t.2, by rw [← hone t.1 hlisted ht.2]⟩

theorem Inode.Lacks.dirFind_ne (hd : d.Sized) (hb : dir.OnDisk d) (h : dir.Lacks d name)
    (slot : Slot) : dirFind d dir name ≠ some (some slot) := by
  intro hfind
  obtain ⟨pre, post, hfirst⟩ := dirFind_eq_some hd hb hfind
  have hnamed := hfirst.named
  rw [(h _ hfirst.mem_entries).2] at hnamed
  exact Bool.noConfusion hnamed

theorem findFreeSlot_cases (hd : d.Sized) (hb : dir.OnDisk d) {r : Option (Block × Slot)}
    (h : findFreeSlot d dir = some r) :
    (r = none ∧ ∀ s ∈ dir.slots d, s.1.isEmpty = false) ∨
      ∃ e b off pre post, r = some (d.block b, e, b, off) ∧
        dir.slots d = pre ++ (e, b, off) :: post ∧ e.isEmpty = true ∧
        ∀ s ∈ pre, s.1.isEmpty = false := by
  have hnone : ∀ s : Slot, some (freeSlot d s) = some none → s.1.isEmpty = false := by
    intro s hs
    simpa [freeSlot] using hs
  rcases scanM_eq_some (findFreeSlot_eq_some hd hb h) with
    ⟨hr, hall⟩ | ⟨a, pre, ⟨e, b, off⟩, post, hr, hsplit, hs, hpre⟩
  · exact Or.inl ⟨hr, fun s hs => hnone s (hall s hs)⟩
  · simp only [freeSlot, Option.some.injEq, Option.ite_none_right_eq_some] at hs
    obtain ⟨he, rfl⟩ := hs
    exact Or.inr ⟨e, b, off, pre, post, hr, hsplit, he, fun s hs => hnone s (hpre s hs)⟩

end Find

/-- The blocks of an inode are as they were after its record is stored. -/
theorem Placed.block_putInode {fs : Fs} {i : Inode} (hp : Placed fs i) (d : Disk) (j : Inode)
    (hj : j.inodeNo = i.inodeNo) :
    ∀ b ∈ i.refs fs.disk, (d.putInode j).block b = d.block b := by
  intro b hb
  refine Disk.block_putInode _ _ fun heq => (hp.range b hb).2.2 ⟨_, hp.inodeNo, ?_⟩
  rw [heq, hj]

/-- The directory `dir` was stored again with a new time and with the slots `slots`, in its old
blocks. -/
structure SlotRewrite (fs fs' : Fs) (dir dir' : Inode) (now : Int64) (slots : List Slot) :
    Prop where
  footprint : Footprint fs fs' [dir.inodeNo.toNat] (dir.refs fs.disk) [] []
  dir_eq : dir' = { dir with mtime := now }
  inode : fs'.disk.inode dir.inodeNo.toNat = dir'
  refs : dir'.refs fs'.disk = dir.refs fs.disk
  blocks : dir'.blocks fs'.disk = dir.blocks fs.disk
  slots : dir'.slots fs'.disk = slots

/-- The common end of adding to and removing from an existing block: one slot is rewritten, then
the record of the directory. -/
theorem Placed.rewriteSlot {fs : Fs} {dir : Inode} (hp : Placed fs dir) {pre post : List Slot}
    {e e' : DirEntry} {b off : ℕ} {buf : Block}
    (hsplit : dir.slots fs.disk = pre ++ (e, b, off) :: post)
    (hslot : DirEntry.fromBytes (buf.slice off dirEntrySize) = e')
    (hrest : ∀ j < 15, j * 34 ≠ off →
      buf.slice (j * 34) dirEntrySize = (fs.disk.block b).slice (j * 34) dirEntrySize)
    (now : Int64) :
    ∃ d', writeInode (fs.disk.writeBlock b buf) fs.sb { dir with mtime := now } = some d' ∧
      SlotRewrite fs ⟨d', fs.sb⟩ dir { dir with mtime := now } now
        (pre ++ (e', b, off) :: post) := by
  obtain ⟨hb, -, -⟩ := Inode.mem_slots (hsplit ▸ List.mem_append_right pre List.mem_cons_self)
  obtain ⟨hlow, hlt, hr⟩ := hp.range b (Inode.mem_refs_of_mem_blocks hb)
  have hw := Footprint.writeBlock hp.sized hp.layout buf (Or.inl (by omega)) hlt hr
  have hput := Footprint.putInode hw.sized hw.layout (i := { dir with mtime := now }) hp.inodeNo
  have hstore : writeInode (fs.disk.writeBlock b buf) fs.sb { dir with mtime := now } =
      some ((fs.disk.writeBlock b buf).putInode { dir with mtime := now }) :=
    hw.sized.writeInode hp.layout hp.inodeNo.recordBlock_lt
  have hrefs : dir.refs (fs.disk.writeBlock b buf) = dir.refs fs.disk :=
    Inode.refs_congr (Inode.block_indirect_writeBlock hb hp.nodup buf)
  have hkeep : ∀ c ∈ dir.refs (fs.disk.writeBlock b buf),
      ((fs.disk.writeBlock b buf).putInode { dir with mtime := now }).block c =
        (fs.disk.writeBlock b buf).block c := by
    intro c hc
    rw [hrefs] at hc
    exact hp.block_putInode _ { dir with mtime := now } rfl c hc
  refine ⟨_, hstore, ?_, rfl, Disk.inode_putInode_self _ _, ?_, ?_, ?_⟩
  · have hboth := (hw.mono (List.nil_subset _) (List.Subset.refl _)).trans_alloc
      (hput.mono (List.Subset.refl _) (List.nil_subset [b])) (by simp)
    refine hboth.mono (List.Subset.refl _) fun c hc => ?_
    rw [List.mem_singleton.mp hc]
    exact Inode.mem_refs_of_mem_blocks hb
  · calc dir.refs _ = dir.refs (fs.disk.writeBlock b buf) :=
          Inode.refs_congr fun hi => hkeep _ (Inode.indirectBlock_mem_refs hi)
      _ = dir.refs fs.disk := hrefs
  · calc dir.blocks _ = dir.blocks (fs.disk.writeBlock b buf) :=
          Inode.blocks_congr fun hi => hkeep _ (Inode.indirectBlock_mem_refs hi)
      _ = dir.blocks fs.disk :=
          Inode.blocks_congr (Inode.block_indirect_writeBlock hb hp.nodup buf)
  · calc dir.slots _ = dir.slots (fs.disk.writeBlock b buf) := Inode.slots_congr hkeep
      _ = pre ++ (e', b, off) :: post := Inode.slots_writeBlock hsplit hp.nodup hslot hrest

/-- The entry `name` was taken out of the directory. -/
structure RemovedEntry (fs fs' : Fs) (dir dir' : Inode) (name : String) (now : Int64) : Prop where
  footprint : Footprint fs fs' [dir.inodeNo.toNat] (dir.refs fs.disk) [] []
  dir_eq : dir' = { dir with mtime := now }
  inode : fs'.disk.inode dir.inodeNo.toNat = dir'
  refs : dir'.refs fs'.disk = dir.refs fs.disk
  table : dir'.table fs'.disk =
    SlotTable.clear DirEntry.isEmpty (DirEntry.named name) DirEntry.cleared (dir.table fs.disk)

/-- The table of a directory whose first entry `name` has been overwritten by `cleared`. -/
theorem Inode.First.clear_table {d : Disk} {dir : Inode} {name : String} {slot : Slot}
    {pre post : List Slot} (h : dir.First d name slot pre post) :
    SlotTable.clear DirEntry.isEmpty (DirEntry.named name) DirEntry.cleared (dir.table d) =
      pre.map Prod.fst ++ slot.1.cleared :: post.map Prod.fst := by
  rw [Inode.table, h.split, List.map_append, List.map_cons,
    SlotTable.clear_of_split ?_ h.present h.named]
  intro e he
  obtain ⟨s, hs, rfl⟩ := List.mem_map.mp he
  exact h.before s hs

theorem dirRemoveEntry_cases {fs : Fs} {dir dir' : Inode} (hp : Placed fs dir) {name : String}
    {now : Int64} {r : Except String Unit} {d' : Disk}
    (h : dirRemoveEntry fs.disk fs.sb dir name now = some (r, d', dir')) :
    (r = .error "entry not found" ∧ d' = fs.disk ∧ dir' = dir ∧ dir.Lacks fs.disk name) ∨
      (r = .ok () ∧ RemovedEntry fs ⟨d', fs.sb⟩ dir dir' name now) := by
  obtain ⟨found, hfind, h⟩ := Option.bind_eq_some_iff.mp h
  cases found with
  | none =>
    simp only [Option.some.injEq, Prod.mk.injEq] at h
    obtain ⟨rfl, rfl, rfl⟩ := h
    exact Or.inl ⟨rfl, rfl, rfl, dirFind_eq_none hp.sized hp.onDisk hfind⟩
  | some slot =>
    obtain ⟨e, b, off⟩ := slot
    obtain ⟨pre, post, hfirst⟩ := dirFind_eq_some hp.sized hp.onDisk hfind
    have hmem : (e, b, off) ∈ dir.slots fs.disk := by
      rw [hfirst.split]
      simp
    obtain ⟨hb, ⟨j, hj, rfl⟩, he⟩ := Inode.mem_slots hmem
    have hlt := (hp.range b (Inode.mem_refs_of_mem_blocks hb)).2.1
    have hslot : DirEntry.fromBytes
        (((fs.disk.block b).copyAt (j * 34 + 5) 1 fun _ => 0).slice (j * 34) dirEntrySize) =
          e.cleared := by
      rw [DirEntry.fromBytes_clear, he]
      simp only [dirEntrySize, maxNameLen, blockSize]
      omega
    have hrest : ∀ k < 15, k * 34 ≠ j * 34 →
        ((fs.disk.block b).copyAt (j * 34 + 5) 1 fun _ => 0).slice (k * 34) dirEntrySize =
          (fs.disk.block b).slice (k * 34) dirEntrySize := by
      intro k _ hne
      apply Vector.slice_copyAt_of_disjoint
      simp only [dirEntrySize, maxNameLen]
      omega
    obtain ⟨d₁, hput, hre⟩ := hp.rewriteSlot hfirst.split hslot hrest now
    simp only [hp.sized.readBlock hlt, hput, Option.bind_eq_bind, Option.bind_some,
      Option.some.injEq, Prod.mk.injEq] at h
    obtain ⟨rfl, rfl, rfl⟩ := h
    refine Or.inr ⟨rfl, hre.footprint, rfl, hre.inode, hre.refs, ?_⟩
    rw [hfirst.clear_table, Inode.table, hre.slots, List.map_append, List.map_cons]

/-- The number of blocks that adding an entry to a directory allocates. -/
def dirAsks (d : Disk) (dir : Inode) : ℕ :=
  if (dir.table d).all (fun e => !e.isEmpty) && dir.blockCount.toNat < 10 then 1 else 0

theorem dirAsks_congr {d d' : Disk} {dir : Inode} (h : dir.table d' = dir.table d) :
    dirAsks d' dir = dirAsks d dir := by
  rw [dirAsks, h, dirAsks]

/-- The entry `e` was put into the directory, in the block `new` when all slots were taken. -/
structure AddedEntry (fs fs' : Fs) (dir dir' : Inode) (e : DirEntry) (new : List ℕ) : Prop where
  footprint : Footprint fs fs' [dir.inodeNo.toNat] (dir.refs fs.disk) new []
  inode : fs'.disk.inode dir.inodeNo.toNat = dir'
  inodeNo : dir'.inodeNo = dir.inodeNo
  mode : dir'.mode = dir.mode
  nlink : dir'.nlink = dir.nlink
  indirectBlock : dir'.indirectBlock = dir.indirectBlock
  blockCount : dir'.blockCount.toNat = dir.blockCount.toNat + new.length
  blocks : dir'.blocks fs'.disk = dir.blocks fs.disk ++ new
  table : dir'.table fs'.disk =
    SlotTable.insert DirEntry.isEmpty e (List.replicate 14 .blank) (dir.table fs.disk)
  grown : (new = [] ∧ ∃ x ∈ dir.table fs.disk, x.isEmpty = true) ∨
    ((∀ x ∈ dir.table fs.disk, x.isEmpty = false) ∧ dir.blockCount.toNat < 10 ∧
      ∃ b, new = [b] ∧ LeastFree fs.disk b)

theorem map_fst_blockSlots (b : ℕ) (buf : Block) :
    (blockSlots b buf).map Prod.fst =
      (List.range 15).map fun j => .fromBytes (buf.slice (j * 34) dirEntrySize) := by
  rw [blockSlots, List.map_map]
  rfl

namespace AddedEntry

variable {fs fs' : Fs} {dir dir' : Inode} {e : DirEntry} {new : List ℕ}

theorem refs_perm (h : AddedEntry fs fs' dir dir' e new) :
    (dir'.refs fs'.disk).Perm (dir.refs fs.disk ++ new) := by
  rw [Inode.refs, Inode.refs, h.blocks, h.indirectBlock, List.append_assoc, List.append_assoc]
  exact List.Perm.append_left _ List.perm_append_comm

theorem mapped (h : AddedEntry fs fs' dir dir' e new) (hm : dir.Mapped fs.disk) :
    dir'.Mapped fs'.disk := by
  rw [Inode.mapped_iff_length_blocks] at hm ⊢
  rw [h.blocks, List.length_append, hm, h.blockCount]

theorem isDir (h : AddedEntry fs fs' dir dir' e new) : dir'.isDir = dir.isDir := by
  rw [Inode.isDir, h.mode, Inode.isDir]

theorem length_new_le (h : AddedEntry fs fs' dir dir' e new) : new.length ≤ 1 := by
  rcases h.grown with ⟨rfl, -⟩ | ⟨-, -, b, rfl, -⟩ <;> simp

end AddedEntry

/-- The slots of a zeroed block with one entry in front. -/
theorem map_fst_blockSlots_fresh (b : ℕ) (e : DirEntry) :
    (blockSlots b ((Vector.zeros blockSize).copyAt 0 dirEntrySize e.toBytes.byteAt)).map Prod.fst =
      e :: List.replicate 14 .blank := by
  have hslot : ∀ j ∈ List.range 15, DirEntry.fromBytes
      (((Vector.zeros blockSize).copyAt 0 dirEntrySize e.toBytes.byteAt).slice (j * 34)
        dirEntrySize) = if j = 0 then e else .blank := by
    intro j _
    split_ifs with hj
    · rw [hj, Nat.zero_mul, Vector.slice_copyAt_self _ _ (by decide), DirEntry.fromBytes_toBytes]
    · rw [Vector.slice_copyAt_of_disjoint _ _ (Or.inl (by
        simp only [dirEntrySize, maxNameLen]; omega)), DirEntry.fromBytes_zeros]
  rw [map_fst_blockSlots, List.map_congr_left hslot]
  rfl

/-- The slots of the first block of a directory. -/
theorem map_fst_blockSlots_dots (b n p : ℕ) :
    (blockSlots b (Fs.dotsBlock n p)).map Prod.fst =
      .new n "." true :: .new p ".." true :: List.replicate 13 .blank := by
  have hslot : ∀ j ∈ List.range 15, DirEntry.fromBytes
      ((Fs.dotsBlock n p).slice (j * 34) dirEntrySize) =
        if j = 0 then .new n "." true else if j = 1 then .new p ".." true else .blank := by
    intro j _
    rw [Fs.dotsBlock]
    split_ifs with h0 h1
    · rw [h0, Nat.zero_mul, Vector.slice_copyAt_of_disjoint _ _ (by decide),
        Vector.slice_copyAt_self _ _ (by decide), DirEntry.fromBytes_toBytes]
    · rw [h1, Nat.one_mul, show (34 : ℕ) = dirEntrySize from rfl, Vector.slice_copyAt_self _ _ (by decide), DirEntry.fromBytes_toBytes]
    · rw [Vector.slice_copyAt_of_disjoint _ _ (Or.inl (by
        simp only [dirEntrySize, maxNameLen]; omega)), Vector.slice_copyAt_of_disjoint _ _ (Or.inl (by
        simp only [dirEntrySize, maxNameLen]; omega)), DirEntry.fromBytes_zeros]
  rw [map_fst_blockSlots, List.map_congr_left hslot]
  rfl

/-- What a call of `dir_add_entry` that returns has done. -/
inductive AddOutcome (fs : Fs) (dir : Inode) (name : String) (e : DirEntry) :
    Except String Unit → Fs → Inode → Prop
  | added {fs' dir' new} : dir.Lacks fs.disk name → AddedEntry fs fs' dir dir' e new →
      AddOutcome fs dir name e (.ok ()) fs' dir'
  | found {slot} : dirFind fs.disk dir name = some (some slot) →
      AddOutcome fs dir name e (.error "entry already exists") fs dir
  | noBlock : dir.Lacks fs.disk name → (∀ x ∈ dir.table fs.disk, x.isEmpty = false) →
      allocateBlock fs.disk fs.sb = some (none, fs.disk, fs.sb) →
      AddOutcome fs dir name e (.error "no free blocks for directory expansion") fs dir
  | tooLarge : dir.Lacks fs.disk name → (∀ x ∈ dir.table fs.disk, x.isEmpty = false) →
      10 ≤ dir.blockCount.toNat → AddOutcome fs dir name e (.error "directory too large") fs dir

/-- The growing of a full directory: the record of the directory after block `b` was given to it. -/
def Inode.appendBlock (dir : Inode) (b : ℕ) (now : Int64) : Inode :=
  { dir with
    directBlocks := dir.directBlocks.setIfInBounds dir.blockCount.toNat (.ofNat b)
    blockCount := dir.blockCount + 1
    size := (dir.blockCount + 1).toUInt32 * .ofNat pageSize
    mtime := now }

theorem Placed.growDirectory {fs fs₁ : Fs} {dir : Inode} (hp : Placed fs dir)
    (hused : ∀ b ∈ dir.refs fs.disk, fs.disk.bit b = true) (hcount : dir.blockCount.toNat < 10)
    (hfull : ∀ x ∈ dir.table fs.disk, x.isEmpty = false) {b : ℕ} (hb : LeastFree fs.disk b)
    (hf : Footprint fs fs₁ [] [] [b] []) (e : DirEntry) (now : Int64) :
    ∃ d', writeInode (fs₁.disk.writeBlock b
        ((Vector.zeros blockSize).copyAt 0 dirEntrySize e.toBytes.byteAt)) fs₁.sb
        (dir.appendBlock b now) = some d' ∧
      AddedEntry fs ⟨d', fs₁.sb⟩ dir (dir.appendBlock b now) e [b] := by
  obtain ⟨hlow, hlt, hfree, hr⟩ := hf.fresh b (by simp)
  let buf : Block := (Vector.zeros blockSize).copyAt 0 dirEntrySize e.toBytes.byteAt
  have hw := Footprint.writeBlock hf.sized hf.layout buf (Or.inl (by omega)) hlt hr
  have hput := Footprint.putInode hw.sized hw.layout (i := dir.appendBlock b now) hp.inodeNo
  have hne : ∀ c ∈ dir.refs fs.disk, c ≠ b := by
    rintro c hc rfl
    simp [hused c hc] at hfree
  have hsucc : (dir.blockCount + 1).toNat = dir.blockCount.toNat + 1 := by
    rw [UInt16.toNat_add]
    exact Nat.mod_eq_of_lt (by show dir.blockCount.toNat + 1 < 2 ^ 16; omega)
  have hfoot : Footprint fs ⟨(fs₁.disk.writeBlock b buf).putInode (dir.appendBlock b now), fs₁.sb⟩
      [dir.inodeNo.toNat] [] [b] [] :=
    ((hf.mono (List.nil_subset _) (List.Subset.refl _)).trans_alloc
      (hw.mono (List.nil_subset _) (List.Subset.refl _)) (by simp)).trans_alloc hput
        (fun _ h => Or.inl h)
  have hblock : ∀ c ∈ dir.refs fs.disk, ((fs₁.disk.writeBlock b buf).putInode
      (dir.appendBlock b now)).block c = fs.disk.block c := by
    intro c hc
    obtain ⟨hlow, -, hr⟩ := hp.range c hc
    exact hfoot.block c (by omega) hr (by simp) (by simpa using hne c hc)
  have hblocks : (dir.appendBlock b now).blocks ((fs₁.disk.writeBlock b buf).putInode
      (dir.appendBlock b now)) = dir.blocks fs.disk ++ [b] :=
    by
      have hdirect : ∀ k < 10, (dir.appendBlock b now).ptr ((fs₁.disk.writeBlock b buf).putInode
          (dir.appendBlock b now)) k = if k = dir.blockCount.toNat then b else dir.ptr fs.disk k :=
        fun k hk => Inode.ptr_set_direct hcount (by omega) hk rfl
      rw [Inode.blocks_succ hsucc fun k hk => by rw [hdirect k (by omega), if_neg (by omega)],
        hdirect _ hcount, if_pos rfl, Inode.pointer, if_neg (by omega)]
      rfl
  refine ⟨_, hw.sized.writeInode hf.layout hp.inodeNo.recordBlock_lt, ?_,
    Disk.inode_putInode_self _ _, rfl, rfl, rfl, rfl, hsucc, hblocks, ?_,
    Or.inr ⟨hfull, hcount, b, rfl, hb⟩⟩
  · exact hfoot.mono (List.Subset.refl _) (List.nil_subset _)
  · have hnew : ((fs₁.disk.writeBlock b buf).putInode (dir.appendBlock b now)).block b = buf := by
      rw [Disk.block_putInode _ (dir.appendBlock b now) fun heq => hr ⟨_, hp.inodeNo, heq.symm⟩,
        Disk.block_writeBlock_self]
    have hold : (dir.blocks fs.disk).flatMap (fun c => blockSlots c
        (((fs₁.disk.writeBlock b buf).putInode (dir.appendBlock b now)).block c)) =
        dir.slots fs.disk := by
      refine List.flatMap_congr fun c hc => ?_
      rw [hblock c (Inode.mem_refs_of_mem_blocks hc)]
    rw [SlotTable.insert_of_full hfull, Inode.table, Inode.slots, hblocks, List.flatMap_append,
      hold, List.map_append, List.flatMap_singleton, hnew, map_fst_blockSlots_fresh, Inode.table]

theorem dirAddEntry_outcome {fs : Fs} {dir dir' : Inode} (hp : Placed fs dir)
    (hused : ∀ b ∈ dir.refs fs.disk, fs.disk.bit b = true) (hlow : LowUsed fs.disk)
    (hroom : fs.disk.Roomy (dirAsks fs.disk dir)) {name : String} {child : ℕ} {isDir : Bool}
    {now : Int64} {r : Except String Unit} {d' : Disk} {sb' : SuperBlock}
    (h : dirAddEntry fs.disk fs.sb dir name child isDir now = some (r, d', sb', dir')) :
    AddOutcome fs dir name (.new child name isDir) r ⟨d', sb'⟩ dir' := by
  obtain ⟨found, hfind, h⟩ := Option.bind_eq_some_iff.mp h
  cases found with
  | some slot =>
    simp only [Option.isSome_some, if_true, Option.some.injEq, Prod.mk.injEq] at h
    obtain ⟨rfl, rfl, rfl, rfl⟩ := h
    exact .found hfind
  | none =>
    have habsent := dirFind_eq_none hp.sized hp.onDisk hfind
    simp only [Option.isSome_none, Bool.false_eq_true, if_false] at h
    obtain ⟨free, hfree, h⟩ := Option.bind_eq_some_iff.mp h
    rcases findFreeSlot_cases hp.sized hp.onDisk hfree with
      ⟨rfl, hfull⟩ | ⟨old, b, off, pre, post, rfl, hsplit, hold, hpre⟩
    · have hfull' : ∀ x ∈ dir.table fs.disk, x.isEmpty = false := by
        intro x hx
        obtain ⟨s, hs, rfl⟩ := List.mem_map.mp hx
        exact hfull s hs
      dsimp only at h
      split_ifs at h with hcount
      · obtain ⟨⟨newBlock, d₁, sb₁⟩, halloc, h⟩ := Option.bind_eq_some_iff.mp h
        cases newBlock with
        | none =>
          obtain ⟨rfl, rfl⟩ := allocateBlock_eq_none hp.sized halloc
          simp only [Option.some.injEq, Prod.mk.injEq] at h
          obtain ⟨rfl, rfl, rfl, rfl⟩ := h
          exact .noBlock habsent hfull' halloc
        | some b =>
          have hasks : dirAsks fs.disk dir = 1 := by
            rw [dirAsks, if_pos]
            simpa [List.all_eq_true] using ⟨hfull', hcount⟩
          rw [hasks] at hroom
          obtain ⟨hleast, hf, -⟩ := Footprint.of_allocateBlock hp.sized hp.layout hlow hroom halloc
          obtain ⟨d₂, hput, hadded⟩ := hp.growDirectory hused hcount hfull' hleast hf
            (.new child name isDir) now
          obtain ⟨d₃, hput', h⟩ := Option.bind_eq_some_iff.mp h
          obtain rfl : d₂ = d₃ := Option.some.inj (hput.symm.trans hput')
          simp only [Option.some.injEq, Prod.mk.injEq] at h
          obtain ⟨rfl, rfl, rfl, rfl⟩ := h
          exact .added habsent hadded
      · simp only [Option.some.injEq, Prod.mk.injEq] at h
        obtain ⟨rfl, rfl, rfl, rfl⟩ := h
        exact .tooLarge habsent hfull' (by simpa using hcount)
    · obtain ⟨hb, ⟨j, hj, rfl⟩, -⟩ :=
        Inode.mem_slots (hsplit ▸ List.mem_append_right pre List.mem_cons_self)
      have hslot : DirEntry.fromBytes (((fs.disk.block b).copyAt (j * 34) dirEntrySize
          (DirEntry.new child name isDir).toBytes.byteAt).slice (j * 34) dirEntrySize) =
            .new child name isDir := by
        rw [Vector.slice_copyAt_self, DirEntry.fromBytes_toBytes]
        simp only [dirEntrySize, maxNameLen, blockSize]
        omega
      have hrest : ∀ k < 15, k * 34 ≠ j * 34 →
          ((fs.disk.block b).copyAt (j * 34) dirEntrySize
            (DirEntry.new child name isDir).toBytes.byteAt).slice (k * 34) dirEntrySize =
            (fs.disk.block b).slice (k * 34) dirEntrySize := by
        intro k _ hne
        apply Vector.slice_copyAt_of_disjoint
        simp only [dirEntrySize, maxNameLen]
        omega
      obtain ⟨d₁, hput, hre⟩ := hp.rewriteSlot hsplit hslot hrest now
      simp only [hput, Option.bind_eq_bind, Option.bind_some, Option.some.injEq,
        Prod.mk.injEq] at h
      obtain ⟨rfl, rfl, rfl, rfl⟩ := h
      have hadded : AddedEntry fs ⟨d₁, fs.sb⟩ dir { dir with mtime := now } (.new child name isDir)
          [] := by
        refine ⟨hre.footprint, hre.inode, rfl, rfl, rfl, rfl, rfl,
          by rw [hre.blocks, List.append_nil], ?_, Or.inl ⟨rfl, old, ?_, hold⟩⟩
        · rw [Inode.table, hre.slots, Inode.table, hsplit, List.map_append, List.map_append,
            List.map_cons, List.map_cons, SlotTable.insert_of_split ?_ hold]
          intro x hx
          obtain ⟨s, hs, rfl⟩ := List.mem_map.mp hx
          exact hpre s hs
        · exact Inode.mem_table_of_slots (p := (b, j * 34)) (hsplit ▸ by simp)
      exact .added habsent hadded

end SimpleFS
