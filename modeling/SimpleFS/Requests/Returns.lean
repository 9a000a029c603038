import SimpleFS.Requests.Preserve

/-! Where the operations do not panic: the superblock is on the disk, the blocks that they read are
mapped, and the names that they compare can be read. -/
namespace SimpleFS
open Scan Bitmap

/-- Every entry of directory `p` has a name that can be read. -/
def Disk.Readable (d : Disk) (p : ℕ) : Prop := ∀ e ∈ (d.inode p).entries d, e.nameStr ≠ none

/-- `allocate_block` returns. -/
theorem allocateBlock_some {fs : Fs} (hd : fs.disk.Sized) (hl : Layout fs.sb) (hs : fs.Synced) :
    ∃ r d' sb', allocateBlock fs.disk fs.sb = some (r, d', sb') := by
  obtain ⟨r, d', sb', h, -⟩ := @allocateBlock_returns fs.disk fs.sb hd
    (by rw [hs]; exact hl.valid) (by rw [hs]; exact hl.bitmapBlocks)
  exact ⟨r, d', sb', h⟩

section Directory

variable {fs : Fs} {dir : Inode}

theorem dirFind_some (hp : Placed fs dir) (hread : ∀ e ∈ dir.entries fs.disk, e.nameStr ≠ none)
    (name : String) : ∃ r, dirFind fs.disk dir name = some r :=
  ⟨_, dirFind_of_readable hp.sized hp.onDisk hread⟩

theorem findFreeSlot_some (hp : Placed fs dir) (hm : dir.Mapped fs.disk) :
    ∃ r, findFreeSlot fs.disk dir = some r := by
  unfold findFreeSlot
  refine ⟨_, scanM_pure (g := fun k => ((blockSlots (dir.ptr fs.disk k)
    (fs.disk.block (dir.ptr fs.disk k))).find? fun slot => slot.1.isEmpty).map
      fun slot => (fs.disk.block (dir.ptr fs.disk k), slot)) fun k hk => ?_⟩
  have hk := List.mem_range.mp hk
  have hptr : Inode.pointer (dir.ptr fs.disk k) = some (dir.ptr fs.disk k) :=
    Inode.pointer_eq_some.mpr ⟨rfl, hm k hk⟩
  rw [hp.onDisk.getBlock hp.sized, hptr]
  simp only [Option.bind_eq_bind, Option.bind_some, hp.onDisk.readBlock hp.sized hk hptr]

theorem dirAddEntry_some (hp : Placed fs dir) (hs : fs.Synced) (hlow : LowUsed fs.disk)
    (hroom : fs.disk.Roomy (dirAsks fs.disk dir)) (hm : dir.Mapped fs.disk)
    (hread : ∀ e ∈ dir.entries fs.disk, e.nameStr ≠ none) (name : String) (child : ℕ)
    (isDir : Bool) (now : Int64) :
    ∃ r, dirAddEntry fs.disk fs.sb dir name child isDir now = some r := by
  have hput : ∀ {d : Disk} {sb : SuperBlock} {i : Inode}, d.Sized → Layout sb →
      i.inodeNo = dir.inodeNo → ∃ d', writeInode d sb i = some d' := fun hd hl hi =>
    ⟨_, hd.writeInode hl (by rw [hi]; exact hp.inodeNo.recordBlock_lt)⟩
  obtain ⟨found, hfind⟩ := dirFind_some hp hread name
  obtain ⟨free, hfree⟩ := findFreeSlot_some hp hm
  unfold dirAddEntry
  rw [hfind, Option.bind_eq_bind, Option.bind_some]
  cases found with
  | some slot => exact ⟨_, rfl⟩
  | none =>
    simp only [Option.isSome_none, Bool.false_eq_true, if_false]
    rw [hfree, Option.bind_eq_bind, Option.bind_some]
    rcases findFreeSlot_cases hp.sized hp.onDisk hfree with
      ⟨rfl, hfull⟩ | ⟨old, b, off, pre, post, rfl, hsplit, -, -⟩
    · dsimp only
      split_ifs with hcount
      · obtain ⟨r, d', sb', halloc⟩ := allocateBlock_some hp.sized hp.layout hs
        rw [halloc, Option.bind_eq_bind, Option.bind_some]
        cases r with
        | none => exact ⟨_, rfl⟩
        | some b =>
          have hasks : dirAsks fs.disk dir = 1 := by
            rw [dirAsks, if_pos]
            have hfull' : ∀ x ∈ dir.table fs.disk, x.isEmpty = false := by
              intro x hx
              obtain ⟨s, hs, rfl⟩ := List.mem_map.mp hx
              exact hfull s hs
            simpa [List.all_eq_true] using ⟨hfull', hcount⟩
          rw [hasks] at hroom
          obtain ⟨-, hf, -⟩ := Footprint.of_allocateBlock hp.sized hp.layout hlow hroom halloc
          have hlt := (hf.fresh b (by simp)).2.1
          obtain ⟨d₂, hstore⟩ := @hput (d'.writeBlock b ((Vector.zeros blockSize).copyAt 0
            dirEntrySize (DirEntry.new child name isDir).toBytes.byteAt)) sb'
            (dir.appendBlock b now) (hf.sized.writeBlock hlt _) hf.layout rfl
          exact ⟨_, Option.bind_eq_some_iff.mpr ⟨d₂, hstore, rfl⟩⟩
      · exact ⟨_, rfl⟩
    · have hb := (Inode.mem_slots (hsplit ▸ List.mem_append_right pre List.mem_cons_self)).1
      have hlt := (hp.range b (Inode.mem_refs_of_mem_blocks hb)).2.1
      obtain ⟨d₂, hstore⟩ := @hput (fs.disk.writeBlock b ((fs.disk.block b).copyAt off dirEntrySize
        (DirEntry.new child name isDir).toBytes.byteAt)) fs.sb { dir with mtime := now }
        (hp.sized.writeBlock hlt _) hp.layout rfl
      exact ⟨_, Option.bind_eq_some_iff.mpr ⟨d₂, hstore, rfl⟩⟩

/-- An entry that is found can be removed. -/
theorem dirRemoveEntry_ok (hp : Placed fs dir) {name : String} {slot : Slot}
    (hfind : dirFind fs.disk dir name = some (some slot)) (now : Int64) :
    ∃ d' dir', dirRemoveEntry fs.disk fs.sb dir name now = some (.ok (), d', dir') := by
  obtain ⟨e, b, off⟩ := slot
  obtain ⟨pre, post, hfirst⟩ := dirFind_eq_some hp.sized hp.onDisk hfind
  have hb := (Inode.mem_slots (hfirst.split ▸ List.mem_append_right pre List.mem_cons_self)).1
  have hlt := (hp.range b (Inode.mem_refs_of_mem_blocks hb)).2.1
  have hstore := (hp.sized.writeBlock hlt ((fs.disk.block b).copyAt (off + 5) 1 fun _ => 0)).writeInode
    hp.layout (show recordBlock { dir with mtime := now }.inodeNo.toNat < 20480 from
      hp.inodeNo.recordBlock_lt)
  unfold dirRemoveEntry
  rw [hfind, Option.bind_eq_bind, Option.bind_some]
  dsimp only
  rw [hp.sized.readBlock hlt, Option.bind_eq_bind, Option.bind_some]
  exact ⟨_, _, Option.bind_eq_some_iff.mpr ⟨_, hstore, rfl⟩⟩

theorem dirFind_congr {fs' : Fs} (hp : Placed fs dir) (hp' : Placed fs' dir)
    (h : ∀ b ∈ dir.refs fs.disk, fs'.disk.block b = fs.disk.block b) (name : String) :
    dirFind fs'.disk dir name = dirFind fs.disk dir name := by
  rw [dirFind_eq hp'.sized hp'.onDisk, dirFind_eq hp.sized hp.onDisk, Inode.slots_congr h]

theorem findInodeNo_some {fs : Fs} (hc : Consistent fs) (first last : ℕ)
    (hno : ∀ n, first ≤ n → n ≤ last → InodeNo n) (hle : first ≤ last) :
    ∃ r, fs.findInodeNo first last = some r := by
  unfold Fs.findInodeNo
  refine ⟨_, scanM_pure (g := fun n => if (fs.disk.inode n).nlink = 0 then some n else none)
    fun n hn => ?_⟩
  obtain ⟨hlo, hhi⟩ := List.mem_range'_1.mp hn
  rw [hc.readInode (hno n hlo (by omega)), Option.bind_eq_bind, Option.bind_some]

end Directory

section Growth

variable {fs : Fs} {i : Inode}

/-- One turn of the growing loop returns. -/
theorem growStep_some (hp : Placed fs i) (hs : fs.Synced) (hlow : LowUsed fs.disk)
    (hbound : i.blockCount.toNat < 20) (hl : i.Linked) {n : ℕ}
    (hroom : fs.disk.Roomy (i.growAsks (n + 1))) :
    ∃ r, Fs.growStep fs.disk fs.sb i = some r := by
  obtain ⟨r, d₁, sb₁, halloc⟩ := allocateBlock_some hp.sized hp.layout hs
  unfold Fs.growStep
  rw [halloc, Option.bind_eq_bind, Option.bind_some]
  cases r with
  | none => exact ⟨_, rfl⟩
  | some b =>
    have hasks : i.growAsks (n + 1) = i.growAsks (n + 1) - 1 + 1 := by
      unfold Inode.growAsks
      omega
    rw [hasks] at hroom
    obtain ⟨-, hf, -⟩ := Footprint.of_allocateBlock hp.sized hp.layout hlow hroom halloc
    have hattach : ∃ r, Fs.attachBlock d₁ sb₁ i b = some r := by
      unfold Fs.attachBlock
      simp only [directBlockCount]
      split_ifs with h10 h10' hover
      · exact ⟨_, rfl⟩
      · obtain ⟨r', d₂, sb₂, halloc'⟩ := @allocateBlock_some ⟨d₁, sb₁⟩ hf.sized hf.layout
          (hf.synced (by simp) hs)
        rw [halloc', Option.bind_eq_bind, Option.bind_some]
        cases r' with
        | none => exact ⟨_, rfl⟩
        | some c => exact ⟨_, rfl⟩
      · simp only [blockSize] at hover
        omega
      · have hmem := Inode.indirectBlock_mem_refs (d := fs.disk) (hl (by omega))
        rw [hf.sized.readBlock (hp.range _ hmem).2.1, Option.bind_eq_bind, Option.bind_some]
        exact ⟨_, rfl⟩
    obtain ⟨⟨i₁, d₂, sb₂⟩, hattach⟩ := hattach
    dsimp only
    rw [hattach, Option.bind_eq_bind, Option.bind_some]
    cases i₁ with
    | none => exact ⟨_, rfl⟩
    | some i₁ => exact ⟨_, rfl⟩

theorem growLoop_some {n : ℕ} : ∀ {fs : Fs} {i : Inode}, Placed fs i → fs.Synced →
    (∀ b ∈ i.refs fs.disk, fs.disk.bit b = true) → LowUsed fs.disk → i.Linked →
    (0 < n → i.blockCount.toNat + n ≤ 20) → fs.disk.Roomy (i.growAsks n) →
    ∃ r, Fs.growLoop n fs.disk fs.sb i = some r := by
  induction n with
  | zero => exact fun _ _ _ _ _ _ _ => ⟨_, rfl⟩
  | succ n ih =>
    intro fs i hp hs hused hlow hl hbound hroom
    obtain ⟨⟨g, d₁, sb₁⟩, hstep⟩ := growStep_some hp hs hlow (by omega) hl hroom
    unfold Fs.growLoop
    rw [hstep, Option.bind_eq_bind, Option.bind_some]
    rcases growStep_outcome hp hused hlow (by omega) hroom hstep with
      ⟨rfl, -⟩ | ⟨rfl, -⟩ | ⟨i₁, new, rfl, hg, hroom₁⟩
    · exact ⟨_, rfl⟩
    · exact ⟨_, rfl⟩
    · have hcount := hg.blockCount
      have hslack : 0 ∉ i.slack := fun h0 => by
        have := (hp.range 0 (Inode.slack_subset_refs hl h0)).1
        omega
      exact @ih ⟨d₁, sb₁⟩ i₁ (hg.placed hp) (hg.footprint.synced hslack hs) (hg.used hp hused)
        (hg.footprint.lowUsed hlow) (hg.linked hl) (by omega) hroom₁

end Growth

section Requests

variable {fs : Fs}

/-- After a new inode was stored, the parent directory takes an entry without a panic. -/
theorem Stocked.dirAddEntry_some {fs' : Fs} {n p : ℕ} {node : Inode} {slots : List DirEntry}
    {blocks : List ℕ} (h : Stocked fs fs' n node slots blocks) (hc : Consistent fs)
    (hs : fs.Synced) (hp : fs.disk.Live p) (hne : p ≠ n)
    (hroom : fs'.disk.Roomy (dirAsks fs.disk (fs.disk.inode p)))
    (hm : (fs.disk.inode p).Mapped fs.disk) (hread : fs.disk.Readable p) (name : String)
    (child : ℕ) (isDir : Bool) (now : Int64) :
    ∃ r, dirAddEntry fs'.disk fs'.sb (fs.disk.inode p) name child isDir now = some r := by
  have hu := h.untouched hc hp hne
  have hp' := hu.live.mpr hp
  have hplaced := h.consistent.placed hp'
  have hmapped := hu.mapped hm
  have htable := hu.table
  have hentries := hu.entries
  rw [hu.inode] at hplaced hmapped htable hentries
  rw [← dirAsks_congr htable] at hroom
  refine SimpleFS.dirAddEntry_some hplaced (h.footprint.synced (by simp) hs) h.consistent.owned.low
    hroom hmapped (fun e he => ?_) name child isDir now
  rw [hentries] at he
  exact hread e he

theorem create_some (hc : Consistent fs) (hs : fs.Synced) {p : ℕ} (hp : fs.disk.Live p)
    (hm : (fs.disk.inode p).Mapped fs.disk) (hread : fs.disk.Readable p) {name : ByteArray}
    (hsafe : fs.StepSafe (.create p name)) (now : ℕ → Int64) :
    ∃ reply fs', fs.create p name now = some (reply, fs') := by
  have h32 := Consistent.asU32_of_inodeNo hp.1
  have hplaced := hc.placed hp
  obtain ⟨found, hfind⟩ := dirFind_some hplaced hread (Fs.nameOr "unknown" name)
  obtain ⟨number, hnumber⟩ := findInodeNo_some hc 1000 2000
    (fun n h₁ h₂ => Or.inr (Or.inr ⟨h₁, h₂⟩)) (by decide)
  rw [Fs.create, h32, hc.readInode hp.1, Option.bind_eq_bind, Option.bind_some,
    show dirFind fs.disk (fs.disk.inode p) ((String.fromUTF8? name).getD "unknown") = some found
      from hfind, Option.bind_eq_bind, Option.bind_some]
  cases found with
  | some slot => exact ⟨_, _, rfl⟩
  | none =>
    simp only [Option.isSome_none, Bool.false_eq_true, if_false]
    rw [hnumber, Option.bind_eq_bind, Option.bind_some]
    rcases findInodeNo_cases hc (fun n h₁ h₂ => Or.inr (Or.inr ⟨h₁, h₂⟩)) (by decide) hnumber with
      ⟨rfl, -⟩ | ⟨n, rfl, hlo, hhi, hunused, -⟩
    · exact ⟨_, _, rfl⟩
    · have hn : InodeNo n := Or.inr (Or.inr ⟨hlo, hhi⟩)
      have hst := Stocked.file hc hn (now 0)
      have hroom : fs.disk.Roomy (dirAsks fs.disk (fs.disk.inode p)) := by
        have hasks : fs.asks (.create p name) = dirAsks fs.disk (fs.disk.inode p) := by
          simp only [Fs.asks, h32]
          rw [hfind, hnumber]
        rwa [Fs.StepSafe, hasks] at hsafe
      have hstore : writeInode fs.disk fs.sb (createdInode n (now 0)) =
          some (fs.disk.putInode (createdInode n (now 0))) := by
        refine hc.sized.writeInode hc.layout ?_
        rw [show (createdInode n (now 0)).inodeNo.toNat = n from toNat_ofNat_of_inodeNo hn]
        exact hn.recordBlock_lt
      obtain ⟨⟨result, d₂, sb₂, dir'⟩, hadd⟩ := hst.dirAddEntry_some hc hs hp
        (fun heq => hunused (heq ▸ hp)) (hst.footprint.roomy hroom) hm hread
        (Fs.nameOr "unknown" name) n false (now 1)
      cases result with
      | error e =>
        exact ⟨_, _, Option.bind_eq_some_iff.mpr ⟨_, hstore,
          Option.bind_eq_some_iff.mpr ⟨_, hadd, rfl⟩⟩⟩
      | ok u =>
        exact ⟨_, _, Option.bind_eq_some_iff.mpr ⟨_, hstore,
          Option.bind_eq_some_iff.mpr ⟨_, hadd, rfl⟩⟩⟩

theorem mkdirAttempt_some (hc : Consistent fs) (hs : fs.Synced) {p : ℕ} (hp : fs.disk.Live p)
    (hm : (fs.disk.inode p).Mapped fs.disk) (hread : fs.disk.Readable p) {name : ByteArray}
    (hsafe : fs.StepSafe (.mkdir p name)) (now : ℕ → Int64) :
    ∃ reply fs', fs.mkdirAttempt p name now = some (reply, fs') := by
  have h32 := Consistent.asU32_of_inodeNo hp.1
  have hplaced := hc.placed hp
  obtain ⟨found, hfind⟩ := dirFind_some hplaced hread (Fs.nameOr "unknown" name)
  obtain ⟨number, hnumber⟩ := findInodeNo_some hc 500 900
    (fun n h₁ h₂ => Or.inr (Or.inl ⟨h₁, h₂⟩)) (by decide)
  rw [Fs.mkdirAttempt, h32, hc.readInode hp.1, Option.bind_eq_bind, Option.bind_some,
    show dirFind fs.disk (fs.disk.inode p) ((String.fromUTF8? name).getD "unknown") = some found
      from hfind, Option.bind_eq_bind, Option.bind_some]
  cases found with
  | some slot => exact ⟨_, _, rfl⟩
  | none =>
    simp only [Option.isSome_none, Bool.false_eq_true, if_false]
    rw [hnumber, Option.bind_eq_bind, Option.bind_some]
    rcases findInodeNo_cases hc (fun n h₁ h₂ => Or.inr (Or.inl ⟨h₁, h₂⟩)) (by decide) hnumber with
      ⟨rfl, -⟩ | ⟨n, rfl, hlo, hhi, hunused, -⟩
    · exact ⟨_, _, rfl⟩
    · have hn : InodeNo n := Or.inr (Or.inl ⟨hlo, hhi⟩)
      have hroom : fs.disk.Roomy (dirAsks fs.disk (fs.disk.inode p) + 1) := by
        have hasks : fs.asks (.mkdir p name) = 1 + dirAsks fs.disk (fs.disk.inode p) := by
          simp only [Fs.asks, h32]
          rw [hfind, hnumber]
        rwa [Fs.StepSafe, hasks, Nat.add_comm] at hsafe
      obtain ⟨r, d₁, sb₁, halloc⟩ := allocateBlock_some hc.sized hc.layout hs
      dsimp only
      rw [halloc, Option.bind_eq_bind, Option.bind_some]
      cases r with
      | none => exact ⟨_, _, rfl⟩
      | some b =>
        obtain ⟨-, hf, hroom₁⟩ := Footprint.of_allocateBlock hc.sized hc.layout hc.owned.low hroom
          halloc
        obtain ⟨hlow, hlt, -⟩ := hf.fresh b (by simp)
        have hst := Stocked.directory (p := p) hc hn hf (now 0)
        have hstore : writeInode (d₁.writeBlock b (Fs.dotsBlock n p)) sb₁ (madeInode n b (now 0)) =
            some ((d₁.writeBlock b (Fs.dotsBlock n p)).putInode (madeInode n b (now 0))) := by
          have hsized : (d₁.writeBlock b (Fs.dotsBlock n p)).Sized := hf.sized.writeBlock hlt _
          refine hsized.writeInode hf.layout ?_
          rw [show (madeInode n b (now 0)).inodeNo.toNat = n from toNat_ofNat_of_inodeNo hn]
          exact hn.recordBlock_lt
        have hroom' : ((d₁.writeBlock b (Fs.dotsBlock n p)).putInode
            (madeInode n b (now 0))).Roomy (dirAsks fs.disk (fs.disk.inode p)) :=
          (hroom₁.writeBlock _ (Or.inl (by omega))).congr fun c hc' => Disk.bit_putInode _ _ hc'
        obtain ⟨⟨result, d₂, sb₂, dir'⟩, hadd⟩ := hst.dirAddEntry_some hc hs hp
          (fun heq => hunused (heq ▸ hp)) hroom' hm hread (Fs.nameOr "unknown" name) n true (now 1)
        cases result with
        | error e =>
          exact ⟨_, _, Option.bind_eq_some_iff.mpr ⟨_, hstore,
            Option.bind_eq_some_iff.mpr ⟨_, hadd, rfl⟩⟩⟩
        | ok u =>
          exact ⟨_, _, Option.bind_eq_some_iff.mpr ⟨_, hstore,
            Option.bind_eq_some_iff.mpr ⟨_, hadd, rfl⟩⟩⟩

theorem setattr_some (hc : Consistent fs) {n : ℕ} (hn : fs.disk.Live n) (mode : Option UInt32)
    (size : Option UInt64) (now : ℕ → Int64) :
    fs.setattr n mode size now =
      some (.attr 1 (inodeToAttr { Fs.setMode (fs.disk.inode n) mode with mtime := now 0 }),
        ⟨fs.disk.putInode { Fs.setMode (fs.disk.inode n) mode with mtime := now 0 }, fs.sb⟩) := by
  rw [Fs.setattr, Consistent.asU32_of_inodeNo hn.1, hc.readInode hn.1, Option.bind_eq_bind,
    Option.bind_some]
  exact Option.bind_eq_some_iff.mpr
    ⟨_, ((hc.placed hn).restamp (sameMap_setMode _ mode (now 0))).1, rfl⟩

/-- After blocks of other inodes were freed and records written, an entry that was found before can
still be removed. -/
private theorem removes {fs' : Fs} {dir : Inode} {recs freed : List ℕ} (hp : Placed fs dir)
    (hf : Footprint fs fs' recs [] [] freed) {name : String} {slot : Slot}
    (hfind : dirFind fs.disk dir name = some (some slot)) (now : Int64) :
    ∃ d' dir', dirRemoveEntry fs'.disk fs'.sb dir name now = some (.ok (), d', dir') := by
  have hkeep := hf.block_of_placed hp
  have hp' := hp.transfer hf.sized hf.layout hkeep
  exact dirRemoveEntry_ok hp' ((dirFind_congr hp hp' hkeep name).trans hfind) now

theorem unlink_some (hc : Consistent fs) {p : ℕ} (hp : fs.disk.Live p) {name : ByteArray}
    {found : Option Slot}
    (hfind : dirFind fs.disk (fs.disk.inode p) (Fs.nameOr "" name) = some found)
    (hlive : ∀ e ∈ (fs.disk.inode p).entries fs.disk, e.named (Fs.nameOr "" name) = true →
      fs.disk.Live e.inode.toNat) (now : ℕ → Int64) :
    ∃ reply fs', fs.unlink p name now = some (reply, fs') := by
  have hplaced := hc.placed hp
  rw [Fs.unlink, Consistent.asU32_of_inodeNo hp.1, hc.readInode hp.1, Option.bind_eq_bind,
    Option.bind_some, show dirFind fs.disk (fs.disk.inode p) ((String.fromUTF8? name).getD "") =
      some found from hfind, Option.bind_eq_bind, Option.bind_some]
  cases found with
  | none => exact ⟨_, _, rfl⟩
  | some slot =>
    obtain ⟨e, s⟩ := slot
    obtain ⟨pre, post, hfirst⟩ := dirFind_eq_some hplaced.sized hplaced.onDisk hfind
    have hce := hlive e hfirst.mem_entries hfirst.named
    have hcno := Consistent.toNat_inodeNo (d := fs.disk) hce.1
    dsimp only
    rw [hc.readInode hce.1, Option.bind_eq_bind, Option.bind_some]
    split_ifs with hchild
    · exact ⟨_, _, rfl⟩
    · have hcused := hc.owned.used hce
      obtain ⟨fs₁, hfree₁, hf₁⟩ := (hc.placed hce).freeDataBlocks fun b hb =>
        hcused b (Inode.mem_refs_of_mem_blocks hb)
      obtain ⟨fs₂, hfree₂, hf₂⟩ := (hc.placed hce).freeRefs hcused hf₁
      let dead : Inode := { fs.disk.inode e.inode.toNat with nlink := 0 }
      have hdead : dead.inodeNo.toNat = e.inode.toNat := hcno
      have hstore : writeInode fs₂.disk fs₂.sb dead = some (fs₂.disk.putInode dead) :=
        hf₂.sized.writeInode hf₂.layout (by rw [hdead]; exact hce.1.recordBlock_lt)
      have hput := Footprint.putInode hf₂.sized hf₂.layout (i := dead) (by rw [hdead]; exact hce.1)
      have hf₃ := (hf₂.mono (List.nil_subset _) (List.Subset.refl _)).trans_free hput
        (List.Subset.refl _)
      obtain ⟨d₄, dir', hremove⟩ := removes hplaced hf₃ hfind (now 0)
      rw [hfree₁, Option.bind_eq_bind, Option.bind_some]
      dsimp only
      rw [hfree₂, Option.bind_eq_bind, Option.bind_some]
      exact ⟨_, _, Option.bind_eq_some_iff.mpr ⟨_, hstore,
        Option.bind_eq_some_iff.mpr ⟨_, hremove, rfl⟩⟩⟩

theorem rmdir_some (hc : Consistent fs) {p : ℕ} (hp : fs.disk.Live p) {name : ByteArray}
    {found : Option Slot}
    (hfind : dirFind fs.disk (fs.disk.inode p) (Fs.nameOr "" name) = some found)
    (hlive : ∀ e ∈ (fs.disk.inode p).entries fs.disk, e.named (Fs.nameOr "" name) = true →
      fs.disk.Live e.inode.toNat) (now : ℕ → Int64) :
    ∃ reply fs', fs.rmdir p name now = some (reply, fs') := by
  have hplaced := hc.placed hp
  rw [Fs.rmdir, Consistent.asU32_of_inodeNo hp.1, hc.readInode hp.1, Option.bind_eq_bind,
    Option.bind_some, show dirFind fs.disk (fs.disk.inode p) ((String.fromUTF8? name).getD "") =
      some found from hfind, Option.bind_eq_bind, Option.bind_some]
  cases found with
  | none => exact ⟨_, _, rfl⟩
  | some slot =>
    obtain ⟨e, s⟩ := slot
    obtain ⟨pre, post, hfirst⟩ := dirFind_eq_some hplaced.sized hplaced.onDisk hfind
    have hce := hlive e hfirst.mem_entries hfirst.named
    have hcno := Consistent.toNat_inodeNo (d := fs.disk) hce.1
    have hcplaced := hc.placed hce
    dsimp only
    rw [hc.readInode hce.1, Option.bind_eq_bind, Option.bind_some]
    split_ifs with hchild
    · exact ⟨_, _, rfl⟩
    · rw [dirLookup_eq hcplaced.sized hcplaced.onDisk, Option.bind_eq_bind, Option.bind_some]
      split_ifs with hfull
      · exact ⟨_, _, rfl⟩
      · obtain ⟨fs₁, hfree₁, hf₁⟩ := hcplaced.freeDataBlocks fun b hb =>
          hc.owned.used hce b (Inode.mem_refs_of_mem_blocks hb)
        obtain ⟨d₂, dir', hremove⟩ := removes hplaced hf₁ hfind (now 0)
        have hplaced₁ := hplaced.transfer hf₁.sized hf₁.layout (hf₁.block_of_placed hplaced)
        let dead : Inode := { fs.disk.inode e.inode.toNat with nlink := 0 }
        have hdead : dead.inodeNo.toNat = e.inode.toNat := hcno
        rcases dirRemoveEntry_cases hplaced₁ hremove with ⟨herr, -⟩ | ⟨-, hrem⟩
        · cases herr
        have hstore : writeInode d₂ fs₁.sb dead = some (d₂.putInode dead) :=
          hrem.footprint.sized.writeInode hrem.footprint.layout
            (by rw [hdead]; exact hce.1.recordBlock_lt)
        rw [hfree₁, Option.bind_eq_bind, Option.bind_some]
        exact ⟨_, _, Option.bind_eq_some_iff.mpr ⟨_, hremove,
          Option.bind_eq_some_iff.mpr ⟨_, hstore, rfl⟩⟩⟩

theorem writeAttempt_some (hc : Consistent fs) (hs : fs.Synced) {n : ℕ} (hn : fs.disk.Live n)
    (hm : (fs.disk.inode n).Mapped fs.disk) {offset : Int64} {data : List UInt8}
    (hrange : Fs.writePos offset + data.length ≤ 510 * 265)
    (hsafe : fs.StepSafe (.write n offset data)) (now : ℕ → Int64) :
    ∃ reply fs', fs.writeAttempt n offset data now = some (reply, fs') := by
  have hp := hc.placed hn
  have h32 := Consistent.asU32_of_inodeNo hn.1
  rw [Fs.writeAttempt, h32, hc.readInode hn.1, Option.bind_eq_bind, Option.bind_some]
  dsimp only
  split_ifs with hzero hbig
  · exact ⟨_, _, rfl⟩
  · exact ⟨_, _, rfl⟩
  · have hreq : (Fs.requiredBlocks offset data.length).toNat ≤ 20 :=
      Nat.le_of_not_lt fun hlt => hbig (UInt32.lt_iff_toNat_lt.mpr hlt)
    have h16 : (Fs.requiredBlocks offset data.length).toUInt16.toNat =
        (Fs.requiredBlocks offset data.length).toNat := by
      rw [UInt32.toNat_toUInt16]
      exact Nat.mod_eq_of_lt (by omega)
    have hroom : fs.disk.Roomy ((fs.disk.inode n).growAsks
        ((Fs.requiredBlocks offset data.length).toUInt16.toNat -
          (fs.disk.inode n).blockCount.toNat)) := by
      have hasks : fs.asks (.write n offset data) = (fs.disk.inode n).growAsks
          ((Fs.requiredBlocks offset data.length).toUInt16.toNat -
            (fs.disk.inode n).blockCount.toNat) := by
        simp only [Fs.asks, h32]
        rw [if_neg (not_or.mpr ⟨hzero, hbig⟩)]
      rwa [Fs.StepSafe, hasks] at hsafe
    rw [h16] at hroom ⊢
    obtain ⟨⟨growth, d₁, sb₁⟩, hgrow⟩ := growLoop_some hp hs (hc.owned.used hn) hc.owned.low
      hm.linked (fun hpos => by omega) hroom
    rw [hgrow, Option.bind_eq_bind, Option.bind_some]
    cases growLoop_outcome hp (hc.owned.used hn) hc.owned.low (fun hpos => by omega) hroom hgrow with
    | full => exact ⟨_, _, rfl⟩
    | stuck => exact ⟨_, _, rfl⟩
    | @grown _ i₁ new hg =>
      have hmod : offset.toUInt64.toNat % pageSize < 510 := Nat.mod_lt _ (by decide)
      have hcount : (Fs.requiredBlocks offset data.length).toNat ≤ i₁.blockCount.toNat := by
        rw [hg.blockCount]
        omega
      have hfit : Fs.writePos offset + data.length ≤ 510 * i₁.blockCount.toNat :=
        (writePos_add_le hreq hrange).trans (Nat.mul_le_mul_left _ hcount)
      obtain ⟨found, d₂, hloop, hstored⟩ := @writeLoop_outcome i₁ data.length ⟨d₁, sb₁⟩
        (offset.toUInt64.toUInt32.toNat / pageSize) (offset.toUInt64.toNat % pageSize) data
        (hg.placed hp) (le_refl _) hmod hfit
      rcases hstored with ⟨rfl, hst⟩ | ⟨-, hnot⟩
      · have hput : ∀ j : Inode, SameMap j i₁ → ∃ d₃, writeInode d₂ sb₁ j = some d₃ :=
          fun j hj => ⟨_, ((hst.placed (hg.placed hp)).restamp hj).1⟩
        dsimp only
        rw [hloop, Option.bind_eq_bind, Option.bind_some]
        simp only [Bool.not_true, Bool.false_eq_true, if_false]
        split_ifs
        · obtain ⟨d₃, hstore⟩ := hput { i₁ with
              size := (offset.toUInt64 + .ofNat data.length).toUInt32
              mtime := now 0
              atime := now 0 } ⟨rfl, rfl, rfl, rfl⟩
          exact ⟨_, _, Option.bind_eq_some_iff.mpr ⟨d₃, hstore, rfl⟩⟩
        · obtain ⟨d₃, hstore⟩ := hput { i₁ with mtime := now 0, atime := now 0 }
            ⟨rfl, rfl, rfl, rfl⟩
          exact ⟨_, _, Option.bind_eq_some_iff.mpr ⟨d₃, hstore, rfl⟩⟩
      · exact absurd (hg.mapped hm) hnot

end Requests

end SimpleFS
