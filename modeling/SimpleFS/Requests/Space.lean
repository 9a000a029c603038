import SimpleFS.Requests.Soundness

/-! How much space there is, and what the requests do with it: when `create` and `write` succeed,
and when they are refused. -/
namespace SimpleFS
open Bitmap

/-- The number of blocks that can still be allocated: the allocator gives up when the free count is
zero, and when no block is marked free. -/
def Fs.room (fs : Fs) : ℕ := min fs.sb.freeBlocks.toNat (fs.disk.freeBelow 20480)

/-- The blocks that were allocated are missing from the free ones. -/
theorem Footprint.freeBelow {fs fs' : Fs} {recs own new : List ℕ}
    (hf : Footprint fs fs' recs own new []) :
    fs'.disk.freeBelow 20480 + new.length = fs.disk.freeBelow 20480 := by
  have hsplit : (Finset.range 20480).filter (fun b => fs.disk.bit b = false) =
      (Finset.range 20480).filter (fun b => fs'.disk.bit b = false) ∪ new.toFinset := by
    ext b
    simp only [Finset.mem_filter, Finset.mem_range, Finset.mem_union, List.mem_toFinset]
    constructor
    · rintro ⟨hb, hfree⟩
      by_cases hn : b ∈ new
      · exact Or.inr hn
      · exact Or.inl ⟨hb, by rw [hf.bit b hb]; simp [hn, hfree]⟩
    · rintro (⟨hb, hfree⟩ | hn)
      · rw [hf.bit b hb] at hfree
        exact ⟨hb, by simpa using (Bool.or_eq_false_iff.mp hfree).2⟩
      · obtain ⟨-, hlt, hfree, -⟩ := hf.fresh b hn
        exact ⟨hlt, hfree⟩
  have hdisj : Disjoint ((Finset.range 20480).filter fun b => fs'.disk.bit b = false)
      new.toFinset := by
    rw [Finset.disjoint_left]
    intro b hb hn
    obtain ⟨hb, hfree⟩ := Finset.mem_filter.mp hb
    rw [hf.bit b (Finset.mem_range.mp hb)] at hfree
    simp [List.mem_toFinset.mp hn] at hfree
  rw [Disk.freeBelow, Disk.freeBelow, hsplit, Finset.card_union_of_disjoint hdisj,
    List.toFinset_card_of_nodup hf.nodup]

theorem Footprint.room {fs fs' : Fs} {recs own new : List ℕ}
    (hf : Footprint fs fs' recs own new []) : fs'.room + new.length = fs.room := by
  have hspent := hf.spent rfl
  have hfree := hf.freeBelow
  unfold Fs.room
  omega

section Refusal

variable {fs : Fs}

theorem refuses_of_room (hd : fs.disk.Sized) (h : fs.room = 0) (hl : Layout fs.sb)
    (hs : fs.Synced) : fs.Refuses := by
  obtain ⟨r, d', sb', halloc⟩ := allocateBlock_some hd hl hs
  rcases allocateBlock_cases hd halloc with ⟨rfl, rfl, rfl⟩ | ⟨b, rfl, hcount, hleast, -, -⟩
  · exact halloc
  · have hfree : fs.disk.freeBelow 20480 ≠ 0 := Finset.card_ne_zero_of_mem
      (Finset.mem_filter.mpr ⟨Finset.mem_range.mpr hleast.lt, hleast.free⟩)
    have hpos : fs.sb.freeBlocks.toNat ≠ 0 := fun h0 =>
      hcount (UInt32.toNat_inj.mp (h0.trans UInt32.toNat_zero.symm))
    unfold Fs.room at h
    omega

/-- The allocator refuses only when there is no space. -/
theorem Fs.Refuses.room_eq (h : fs.Refuses) (hd : fs.disk.Sized) (hl : Layout fs.sb)
    (hs : fs.Synced) : fs.room = 0 := by
  obtain ⟨r, d', sb', halloc, hnone⟩ := @allocateBlock_returns fs.disk fs.sb hd
    (by rw [hs]; exact hl.valid) (by rw [hs]; exact hl.bitmapBlocks)
  obtain rfl : r = none := by
    rw [Fs.Refuses, halloc] at h
    exact congrArg Prod.fst (Option.some.inj h)
  unfold Fs.room
  rcases hnone rfl with h0 | hused
  · rw [h0]
    exact Nat.zero_min _
  · have hfree : fs.disk.freeBelow 20480 = 0 := by
      rw [Disk.freeBelow, Finset.card_eq_zero, Finset.filter_eq_empty_iff]
      intro b hb
      simp [hused b (Finset.mem_range.mp hb)]
    rw [hfree]
    exact Nat.min_zero _

/-- Where the free count is right it is the space. -/
theorem room_of_counted (h : fs.sb.freeBlocks.toNat =
    ((Finset.range 20480).filter fun b => fs.disk.bit b = false).card) :
    fs.room = fs.sb.freeBlocks.toNat := by
  rw [Fs.room, Disk.freeBelow, ← h, min_self]

end Refusal

section Write

/-- The number of blocks that a write allocates when there is space. -/
def Fs.need (fs : Fs) (n required : ℕ) : ℕ :=
  (fs.disk.inode n).growAsks (required - (fs.disk.inode n).blockCount.toNat)

theorem Fs.need_eq (fs : Fs) (n required : ℕ) : fs.need n required =
    required - (fs.disk.inode n).blockCount.toNat +
      if (fs.disk.inode n).blockCount.toNat ≤ 10 ∧ 10 < required then 1 else 0 := by
  unfold Fs.need Inode.growAsks
  generalize (fs.disk.inode n).blockCount.toNat = count
  split_ifs <;> omega

theorem Stalled.room {fs fs' : Fs} {n : ℕ} {new : List ℕ} (h : Stalled fs fs' n new) (hs : fs.Synced)
    (hslack : 0 ∉ (fs.disk.inode n).slack) (hr : fs'.Refuses) : new.length = fs.room := by
  have hsum := h.footprint.room
  have hzero := hr.room_eq h.footprint.sized h.footprint.layout (h.footprint.synced hslack hs)
  omega

/-- What a write does, told by the space that there is. -/
inductive WriteBySpace (fs : Fs) (n : ℕ) (offset : Int64) (data : List UInt8) (required : ℕ) :
    Option Reply → Fs → Prop
  | stalled {fs' new} : fs.room < fs.need n required →
      ¬ ((fs.disk.inode n).blockCount.toNat ≤ 10 ∧ 10 < required ∧
        fs.room = 11 - (fs.disk.inode n).blockCount.toNat) →
      new.length = fs.room → Stalled fs fs' n new →
      WriteBySpace fs n offset data required (some (.error .ENOSPC)) fs'
  | stuck {fs' new} : (fs.disk.inode n).blockCount.toNat ≤ 10 → 10 < required →
      fs.room = 11 - (fs.disk.inode n).blockCount.toNat → new.length = fs.room →
      Stalled fs fs' n new → WriteBySpace fs n offset data required none fs'
  | lost {fs'} : fs.need n required ≤ fs.room →
      ((fs.disk.inode n).Mapped fs.disk → 510 * 265 < Fs.writePos offset + data.length) →
      WriteBySpace fs n offset data required none fs'
  | wrote {fs' new} : fs.need n required ≤ fs.room → new.length = fs.need n required →
      Wrote fs fs' n offset data new →
      WriteBySpace fs n offset data required (some (.written (data.length % 2 ^ 32))) fs'

variable {fs fs' : Fs} {n : ℕ} {offset : Int64} {data : List UInt8} {reply : Option Reply}

theorem writeAttempt_bySpace (hc : Consistent fs) (hs : fs.Synced) (hn : fs.disk.Live n)
    (hl : (fs.disk.inode n).Linked) (hsafe : fs.StepSafe (.write n offset data)) {now : ℕ → Int64}
    (hdata : data ≠ []) (hreq : (Fs.requiredBlocks offset data.length).toNat ≤ 20)
    (h : fs.writeAttempt n offset data now = some (reply, fs')) :
    WriteBySpace fs n offset data (Fs.requiredBlocks offset data.length).toNat reply fs' := by
  have hslack : 0 ∉ (fs.disk.inode n).slack := fun h0 =>
    hc.zero_not_mem_held n (hn.held ▸ Inode.slack_subset_refs hl h0)
  cases writeAttempt_outcome hc hn hsafe h with
  | empty hnil => exact absurd hnil hdata
  | tooBig _ hbig => omega
  | @stalled _ m new _ _ hm hcount hst hr =>
    have hroom := hst.room hs hslack hr
    refine .stalled ?_ ?_ hroom hst
    · unfold Fs.need
      unfold Inode.growAsks at hcount ⊢
      split_ifs at hcount ⊢ <;> omega
    · unfold Inode.growAsks at hcount
      split_ifs at hcount <;> omega
  | stuck _ _ h10 hlt hcount hst hr =>
    have hroom := hst.room hs hslack hr
    exact .stuck h10 hlt (by omega) hroom hst
  | lost _ _ hg hlost =>
    have hroom := hg.footprint.room
    have hcount := hg.count
    exact .lost (by rw [Fs.need, ← hcount]; omega) hlost
  | wrote _ _ hcount hw =>
    have hroom := hw.footprint.room
    exact .wrote (by rw [Fs.need, ← hcount]; omega) hcount hw

/-- Where there is space a write to a file succeeds. -/
theorem write_written (hc : Consistent fs) (hs : fs.Synced) (hr : Reserved fs.disk)
    (hn : fs.disk.Live n) (hm : (fs.disk.inode n).Mapped fs.disk) (hdata : data ≠ [])
    (hreq : (Fs.requiredBlocks offset data.length).toNat ≤ 20)
    (hrange : Fs.writePos offset + data.length ≤ 510 * 265)
    (hroom : fs.need n (Fs.requiredBlocks offset data.length).toNat ≤ fs.room)
    (now : ℕ → Int64) : ∃ fs' new,
      fs.write n offset data now = some (.written (data.length % 2 ^ 32), fs') ∧
        new.length = fs.need n (Fs.requiredBlocks offset data.length).toNat ∧
        Wrote fs fs' n offset data new := by
  have hsafe := hr.stepSafe (.write n offset data)
  obtain ⟨reply, fs', hwrite⟩ := writeAttempt_some hc hs hn hm hrange hsafe now
  cases writeAttempt_bySpace hc hs hn hm.linked hsafe hdata hreq hwrite with
  | stalled hlt _ _ _ => omega
  | stuck h10 hlt heq _ _ =>
    rw [Fs.need_eq, if_pos ⟨h10, hlt⟩] at hroom
    omega
  | lost _ hlost =>
    have := hlost hm
    omega
  | wrote _ hcount hw => exact ⟨fs', _, Fs.answered_eq_some.mpr hwrite, hcount, hw⟩

end Write

section Create

variable {fs : Fs} {p : ℕ}

/-- Where a slot is unused `create` allocates nothing. -/
theorem stepSafe_create (hp : InodeNo p)
    (hslot : ∃ x ∈ (fs.disk.inode p).table fs.disk, x.isEmpty = true) (name : ByteArray) :
    fs.StepSafe (.create p name) := by
  have hnone : dirAsks fs.disk (fs.disk.inode p) = 0 := by
    obtain ⟨x, hx, hempty⟩ := hslot
    rw [dirAsks, if_neg]
    intro hall
    have hfull := List.all_eq_true.mp (Bool.and_eq_true_iff.mp hall).1 x hx
    rw [hempty] at hfull
    cases hfull
  have hasks : fs.asks (.create p name) = 0 := by
    simp only [Fs.asks, Consistent.asU32_of_inodeNo hp, hnone]
    split <;> rfl
  rw [Fs.StepSafe, hasks]
  exact fun _ _ _ => Nat.zero_le _

/-- Where a slot and an inode number are unused a file is created. -/
theorem create_created (name : ByteArray) (hc : Consistent fs) (hs : fs.Synced)
    (hsafe : fs.StepSafe (.create p name)) (hp : fs.disk.Live p) (hm : (fs.disk.inode p).Mapped fs.disk) (hread : fs.disk.Readable p)
    (hlacks : (fs.disk.inode p).Lacks fs.disk (Fs.nameOr "unknown" name))
    (hslot : ∃ x ∈ (fs.disk.inode p).table fs.disk, x.isEmpty = true)
    (hnumber : ∃ n, 1000 ≤ n ∧ n ≤ 2000 ∧ ¬ fs.disk.Live n) (now : ℕ → Int64) :
    ∃ n fs' grown, fs.create p name now =
        some (.created 1 (inodeToAttr (createdInode n (now 0))) 0 n 0, fs') ∧
      1000 ≤ n ∧ n ≤ 2000 ∧ (∀ m, 1000 ≤ m → m < n → fs.disk.Live m) ∧
      Born fs fs' p n (.new n (Fs.nameOr "unknown" name) false) (createdInode n (now 0)) [] []
        grown := by
  obtain ⟨reply, fs', hcreate⟩ := create_some hc hs hp hm hread hsafe now
  have hplaced := hc.placed hp
  cases create_outcome hc hp hsafe hcreate with
  | found hfind => exact absurd hfind (hlacks.dirFind_ne hplaced.sized hplaced.onDisk _)
  | noInode _ hall =>
    obtain ⟨n, hlo, hhi, hn⟩ := hnumber
    exact absurd (hall n hlo hhi) hn
  | orphan _ _ _ _ hfull _ _ =>
    obtain ⟨x, hx, hempty⟩ := hslot
    rw [hfull x hx] at hempty
    cases hempty
  | created _ hlo hhi hleast hb => exact ⟨_, fs', _, hcreate, hlo, hhi, hleast, hb⟩

end Create

section States

/-- The parent directory takes a new block exactly when all its slots are in use. -/
theorem Born.length_grown {fs fs' : Fs} {p n : ℕ} {e : DirEntry} {node : Inode}
    {slots : List DirEntry} {blocks grown : List ℕ} (h : Born fs fs' p n e node slots blocks grown)
    (hp : fs.disk.Live p) : grown.length =
      if ((fs.disk.inode p).table fs.disk).all fun x => !x.isEmpty then 1 else 0 := by
  have hlen := congrArg List.length h.table
  rw [SlotTable.length_insert, Inode.length_table, Inode.length_table, List.length_replicate] at hlen
  have hrefs := h.refs.length_eq
  rw [List.length_append, hp.held, Inode.refs, Inode.refs, h.indirectBlock, List.length_append,
    List.length_append] at hrefs
  split_ifs at hlen ⊢ <;> omega

variable {now : Int64} {free : List ℕ} {fs : Fs}

theorem Formatted.room (h : Formatted .empty now (fun b => !decide (b ∈ free)) fs)
    (hs : BlockSound fs) (hn : free.Nodup) (hr : ∀ b ∈ free, b < 20480) :
    fs.room = free.length := by
  rw [room_of_counted hs.counted, hs.counted, ← List.toFinset_card_of_nodup hn]
  refine congrArg Finset.card (Finset.ext fun b => ?_)
  simp only [Finset.mem_filter, Finset.mem_range, List.mem_toFinset]
  constructor
  · rintro ⟨hb, hfree⟩
    rw [h.bit b hb] at hfree
    simpa using hfree
  · intro hb
    refine ⟨hr b hb, ?_⟩
    rw [h.bit b (hr b hb)]
    simpa using hb

section Root

variable {d : Disk} {taken : ℕ → Bool}

theorem Formatted.lacks_root (h : Formatted d now taken fs) {name : String} (hdot : name ≠ ".")
    (hdotdot : name ≠ "..") : (fs.disk.inode 1).Lacks fs.disk name := by
  intro e he
  refine ⟨h.readable_root e he, ?_⟩
  rw [h.entries_root] at he
  rcases List.mem_pair.mp he with rfl | rfl
  · rw [DirEntry.named_new_of_le _ _ (by decide)]
    exact decide_eq_false hdot.symm
  · rw [DirEntry.named_new_of_le _ _ (by decide)]
    exact decide_eq_false hdotdot.symm

/-- A file can be created in a new image, whatever is free. -/
theorem Formatted.create (h : Formatted d now taken fs) (hb : d.Blank) {name : ByteArray}
    (hname : EntryName name) (clock : ℕ → Int64) :
    fs.StepSafe (.create 1 name) ∧ ∃ fs', fs.create 1 name clock =
        some (.created 1 (inodeToAttr (createdInode 1000 (clock 0))) 0 1000 0, fs') ∧
      Born fs fs' 1 1000 (.new 1000 (Fs.nameOr "unknown" name) false)
        (createdInode 1000 (clock 0)) [] [] [] := by
  have hproper := hname.proper properName_unknown
  have hslot : ∃ x ∈ (fs.disk.inode 1).table fs.disk, x.isEmpty = true :=
    ⟨.blank, by rw [h.table_root]; simp [dots], rfl⟩
  have hsafe := stepSafe_create h.live_root.1 hslot name
  have hunused : ∀ n, n ≠ 1 → ¬ fs.disk.Live n := fun n hne hl => hne ((h.live_iff hb).mp hl)
  obtain ⟨n, fs', grown, hcreate, hlo, hhi, hleast, hborn⟩ := create_created name (h.consistent hb)
    h.synced hsafe h.live_root (h.mapped hb h.live_root) h.readable_root
    (h.lacks_root hproper.ne_dot hproper.ne_dotdot) hslot
    ⟨1000, by decide, by decide, hunused 1000 (by decide)⟩ clock
  obtain rfl : n = 1000 := by
    by_contra hne
    exact hunused 1000 (by decide) (hleast 1000 (le_refl _) (by omega))
  obtain rfl : grown = [] := by
    rw [← List.length_eq_zero_iff, hborn.length_grown h.live_root, h.table_root]
    rfl
  exact ⟨hsafe, fs', hcreate, hborn⟩

end Root

/-- There are sound states with a new file in the root, and any number of free blocks up to 57. -/
theorem exists_created (free : List ℕ) (hn : free.Nodup) (hr : ∀ b ∈ free, 32 ≤ b ∧ b < 89) :
    ∃ (fs₀ fs : Fs) (attr : FileAttr), BlockSound fs₀ ∧ TreeSound fs₀.disk ∧
      fs₀.disk.IsDirectory 1 ∧
      fs₀.create 1 "a".toByteArray (fun _ => 0) = some (.created 1 attr 0 1000 0, fs) ∧
      Born fs₀ fs 1 1000 (.new 1000 "a" false) (createdInode 1000 0) [] [] [] ∧
      fs.room = free.length := by
  obtain ⟨fs, h, hs, ht⟩ := exists_sound free hn hr
  have hroom := h.room hs hn fun b hb => (hr b hb).2.trans (by decide)
  have hname : Fs.nameOr "unknown" "a".toByteArray = "a" := by
    rw [Fs.nameOr, fromUTF8?_toByteArray]
    rfl
  obtain ⟨-, fs', hcreate, hb⟩ := h.create Disk.blank_empty entryName_a fun _ => 0
  rw [hname] at hb
  have hsum := hb.footprint.room
  exact ⟨fs, fs', _, hs, ht, h.isDirectory_root, hcreate, hb, by simpa [hroom] using hsum⟩

/-- There are sound states with a file `a` of one block in the root, made by `create` and `write`. -/
theorem exists_written : ∃ (fs₀ fs₁ fs₂ : Fs) (attr : FileAttr) (s : ℕ × ℕ), BlockSound fs₀ ∧
    TreeSound fs₀.disk ∧ fs₀.disk.IsDirectory 1 ∧
    fs₀.create 1 "a".toByteArray (fun _ => 0) = some (.created 1 attr 0 1000 0, fs₁) ∧
    attr.ino = 1000 ∧ fs₁.disk.Live 1000 ∧ (fs₁.disk.inode 1000).isDir = false ∧
    fs₁.write 1000 0 [7] (fun _ => 0) = some (.written 1, fs₂) ∧
    BlockSound fs₂ ∧ TreeSound fs₂.disk ∧ fs₂.disk.IsDirectory 1 ∧ fs₂.disk.Live 1000 ∧
    dirFind fs₂.disk (fs₂.disk.inode 1) "a" = some (some (.new 1000 "a" false, s)) ∧
    (fs₂.disk.inode 1000).isDir = false ∧ (fs₂.disk.inode 1000).refs fs₂.disk ≠ [] := by
  obtain ⟨fs₀, fs₁, attr, hs₀, ht₀, hroot, hcreate, hb, hroom⟩ :=
    exists_created [32] (by decide) (by decide)
  have hname : Fs.nameOr "unknown" "a".toByteArray = "a" := by
    rw [Fs.nameOr, fromUTF8?_toByteArray]
    rfl
  obtain ⟨hlacks, hino⟩ : (fs₀.disk.inode 1).Lacks fs₀.disk "a" ∧ attr.ino = 1000 := by
    cases create_outcome hs₀.toConsistent hroot.1 (hs₀.reserved.stepSafe _) hcreate with
    | created hlacks _ _ _ hb' => exact ⟨hname ▸ hlacks, toNat_ofNat_of_inodeNo hb'.inodeNo⟩
  obtain ⟨s, hfind⟩ := hb.found hroot.1 (by decide) (by decide) hlacks
  have hcreated := Change.file hroot ⟨by decide, by decide, by decide⟩ (by decide) hb
  have hs₁ := hcreated.blockSound hs₀
  have ht₁ := (hcreated.treeChange hs₀.toConsistent).treeSound ht₀
  have hn : fs₁.disk.Live 1000 := ⟨hb.inodeNo, by rw [hb.inode]; exact nlink_createdInode _ _⟩
  have hfile : (fs₁.disk.inode 1000).isDir = false := by rw [hb.inode, isDir_createdInode]
  have hroot₁ : fs₁.disk.IsDirectory 1 :=
    ⟨⟨Or.inl rfl, by rw [hb.nlink]; exact hroot.1.2⟩, by rw [Inode.isDir, hb.mode]; exact hroot.2⟩
  have hcount : (fs₁.disk.inode 1000).blockCount.toNat = 0 := by
    rw [hb.inode]
    rfl
  have hneed : fs₁.need 1000 (Fs.requiredBlocks 0 1).toNat = 1 := by
    rw [Fs.need_eq, hcount]
    rfl
  obtain ⟨fs₂, new, hwrite, -, hw⟩ := write_written hs₁.toConsistent hs₁.synced hs₁.reserved hn
    (hs₁.mapped 1000 hn) (show ([7] : List UInt8) ≠ [] by decide)
    (show (Fs.requiredBlocks 0 1).toNat ≤ 20 by decide) (by decide)
    (by rw [List.length_singleton, hneed, hroom]; rfl) fun _ => 0
  have hwrote := Change.wrote hn hfile hw
  have hu := (hw.touched hs₁.toConsistent hn).untouched hs₁.toConsistent hroot₁.1 (by decide)
  have hs₂ := hwrote.blockSound hs₁
  have hlive : fs₂.disk.Live 1000 := ⟨hn.1, by rw [hw.nlink]; exact hn.2⟩
  refine ⟨fs₀, fs₁, fs₂, attr, s, hs₀, ht₀, hroot, hcreate, hino, hn, hfile, hwrite, hs₂, (hwrote.treeChange hs₁.toConsistent).treeSound ht₁,
    ⟨hu.live.mpr hroot₁.1, by rw [hu.inode]; exact hroot₁.2⟩, hlive, ?_,
    by rw [Inode.isDir, hw.mode]; exact hfile, fun hnil => ?_⟩
  · have hplaced := hs₂.placed (hu.live.mpr hroot₁.1)
    rw [hu.inode] at hplaced ⊢
    exact (dirFind_congr (hs₁.placed hroot₁.1) hplaced hu.block "a").trans hfind
  · have hlen := Inode.mapped_iff_length_blocks.mp (hs₂.mapped 1000 hlive)
    rw [(List.append_eq_nil_iff.mp hnil).1, hw.blockCount, hcount] at hlen
    exact absurd hlen (by decide)

end States

end SimpleFS
