import SimpleFS.Foundation.Journal
import SimpleFS.Requests.Create
import SimpleFS.Requests.Remove
import SimpleFS.Requests.Write

/-! What the disk holds between two calls of `write_block`: blocks are marked used before an inode
refers to them, so that every disk on the way can be mounted with its blocks owned. -/
namespace SimpleFS
open Bitmap

namespace Disk

/-- The disk after the writes `ws`, the latest first. -/
def replay (d : Disk) (ws : List (ℕ × Block)) : Disk :=
  Journal.replay (fun d w => d.writeBlock w.1 w.2) d ws

/-- `d'` comes from `d` by writing blocks, and `P` holds before the first write and after each. -/
def Trail (P : Disk → Prop) (d d' : Disk) : Prop :=
  ∃ ws, d'.writes = ws ++ d.writes ∧ Journal.Trail (fun d w => d.writeBlock w.1 w.2) P d ws d'

namespace Trail

variable {P : Disk → Prop} {d d' d'' : Disk}

theorem refl (h : P d) : Trail P d d := ⟨[], rfl, .start h⟩

theorem last (h : Trail P d d') : P d' := h.choose_spec.2.last

theorem write (h : Trail P d d') {b : ℕ} {buf : Block} (hP : P (d'.writeBlock b buf)) :
    Trail P d (d'.writeBlock b buf) := by
  obtain ⟨ws, hws, h⟩ := h
  refine ⟨(b, buf) :: ws, ?_, h.write (b, buf) hP⟩
  rw [writeBlock, hws, List.cons_append]

theorem trans (h : Trail P d d') (h' : Trail P d' d'') : Trail P d d'' := by
  obtain ⟨ws, hws, h⟩ := h
  obtain ⟨ws', hws', h'⟩ := h'
  exact ⟨ws' ++ ws, by rw [hws', hws, List.append_assoc], h.trans h'⟩

end Trail

/-- A disk as a crash may leave it: it has the layout, and its blocks are owned exclusively. -/
structure Recoverable (d : Disk) : Prop where
  sized : d.Sized
  layout : Layout (SuperBlock.fromBytes (d.block 0))
  owned : Owned d

/-- Block `b` is a data block, and not the indirect block of an inode in use. -/
structure Plain (d : Disk) (b : ℕ) : Prop where
  low : 6 ≤ b
  lt : b < 20480
  record : ¬ IsRecordBlock b
  indirect : ∀ n, d.Live n → (d.inode n).indirectBlock ≠ 0 → (d.inode n).indirectBlock.toNat ≠ b

/-- What the inodes hold depends on their records and their indirect blocks only. -/
theorem held_congr {d d' : Disk} (hinode : ∀ n, InodeNo n → d'.inode n = d.inode n)
    (hblock : ∀ n, d.Live n → (d.inode n).indirectBlock ≠ 0 →
      d'.block (d.inode n).indirectBlock.toNat = d.block (d.inode n).indirectBlock.toNat) (n : ℕ) :
    d'.held n = d.held n := by
  by_cases hn : d.Live n
  · have hn' : d'.Live n := ⟨hn.1, by rw [hinode n hn.1]; exact hn.2⟩
    rw [hn'.held, hn.held, hinode n hn.1, Inode.refs_congr (hblock n hn)]
  · rw [held_of_not_live hn, held_of_not_live fun hn' =>
      hn ⟨hn'.1, by rw [← hinode n hn'.1]; exact hn'.2⟩]

namespace Plain

variable {d : Disk} {b c : ℕ}

theorem inode_writeBlock (h : d.Plain b) (buf : Block) {n : ℕ} (hn : InodeNo n) :
    (d.writeBlock b buf).inode n = d.inode n :=
  d.inode_writeBlock_of_ne buf fun heq => h.record ⟨n, hn, heq⟩

theorem live_writeBlock (h : d.Plain b) (buf : Block) {n : ℕ} :
    (d.writeBlock b buf).Live n ↔ d.Live n := by
  unfold Live
  refine and_congr_right fun hn => ?_
  rw [h.inode_writeBlock buf hn]

theorem held_writeBlock (h : d.Plain b) (buf : Block) (n : ℕ) :
    (d.writeBlock b buf).held n = d.held n :=
  held_congr (fun _ hn => h.inode_writeBlock buf hn)
    (fun m hm hi => d.block_writeBlock_of_ne buf (h.indirect m hm hi)) n

theorem writeBlock (h : d.Plain b) (hc : d.Plain c) (buf : Block) : (d.writeBlock c buf).Plain b := by
  refine ⟨h.low, h.lt, h.record, fun n hn => ?_⟩
  rw [hc.inode_writeBlock buf hn.1]
  exact h.indirect n ((hc.live_writeBlock buf).mp hn)

/-- A block that no inode holds can be written. -/
theorem of_not_held (hlow : 6 ≤ b) (hlt : b < 20480) (hr : ¬ IsRecordBlock b)
    (h : ∀ n, b ∉ d.held n) : d.Plain b := by
  refine ⟨hlow, hlt, hr, fun n hn hi heq => h n ?_⟩
  rw [hn.held, ← heq]
  exact Inode.indirectBlock_mem_refs hi

/-- The data blocks of an inode can be written. -/
theorem of_mem_blocks (ho : Owned d) {n : ℕ} (hn : d.Live n) (hb : b ∈ (d.inode n).blocks d) :
    d.Plain b := by
  have hmem : b ∈ d.held n := hn.held ▸ Inode.mem_refs_of_mem_blocks hb
  obtain ⟨hlow, hlt, -, hr⟩ := ho.range n b hmem
  refine ⟨by omega, hlt, hr, fun m hm hi heq => ?_⟩
  have hind : b ∈ d.held m := by
    rw [hm.held, ← heq]
    exact Inode.indirectBlock_mem_refs hi
  obtain rfl := ho.exclusive.owner_unique hind hmem
  have hnodup := hn.held ▸ ho.exclusive.nodup m
  rw [Inode.refs, if_neg hi] at hnodup
  exact (List.nodup_append.mp hnodup).2.2 b hb _ (List.mem_singleton.mpr rfl) heq.symm

end Plain

namespace Recoverable

variable {d d' : Disk}

theorem of_held_eq (h : d.Recoverable) (hd : d'.Sized) (hsuper : d'.block 0 = d.block 0)
    (hbit : ∀ c < 20480, d.bit c = true → d'.bit c = true) (hheld : ∀ n, d'.held n = d.held n) :
    d'.Recoverable := by
  have hfun : d'.held = d.held := funext hheld
  refine ⟨hd, by rw [hsuper]; exact h.layout, ?_⟩
  rw [Owned, hfun]
  refine ⟨fun b hb => hbit b (by omega) (h.owned.low b hb), fun n b hb => ?_, h.owned.exclusive⟩
  obtain ⟨hlow, hlt, hused, hr⟩ := h.owned.range n b hb
  exact ⟨hlow, hlt, hbit b hlt hused, hr⟩

theorem writeBlock (h : d.Recoverable) {b : ℕ} (hb : d.Plain b) (buf : Block) :
    (d.writeBlock b buf).Recoverable := by
  have hlow := hb.low
  refine h.of_held_eq (h.sized.writeBlock hb.lt buf) (d.block_writeBlock_of_ne buf (by omega))
    (fun c hc hused => ?_) (hb.held_writeBlock buf)
  rw [bit_writeBlock_of_le d buf (Or.inl hlow) hc, hused]

theorem writeSuperblock (h : d.Recoverable) {sb : SuperBlock} (hl : Layout sb) :
    (writeSuperblock d sb).Recoverable := by
  have hkeep : ∀ c, 6 ≤ c → (SimpleFS.writeSuperblock d sb).block c = d.block c := fun c hc =>
    d.block_writeBlock_of_ne _ (by omega)
  have hheld : ∀ n, (SimpleFS.writeSuperblock d sb).held n = d.held n := by
    refine held_congr (fun n _ => inode_eq_of_block_eq (hkeep _ (six_le_recordBlock n)))
      fun n hn hi => hkeep _ ?_
    have := (h.owned.range n _ (hn.held ▸ Inode.indirectBlock_mem_refs hi)).1
    omega
  have hfun : (SimpleFS.writeSuperblock d sb).held = d.held := funext hheld
  refine ⟨h.sized.writeBlock (by decide) _, ?_, ?_⟩
  · rw [SimpleFS.writeSuperblock, block_writeBlock_self, SuperBlock.fromBytes_toBlock]
    exact hl
  · have hbit : ∀ c < 20480, (SimpleFS.writeSuperblock d sb).bit c = d.bit c := fun c hc =>
      bit_writeBlock_of_le d _ (Or.inr rfl) hc
    rw [Owned, hfun]
    refine ⟨fun b hb => ?_, fun n b hb => ?_, h.owned.exclusive⟩
    · rw [hbit b (by omega), h.owned.low b hb]
    · obtain ⟨hlow, hlt, hused, hr⟩ := h.owned.range n b hb
      exact ⟨hlow, hlt, (hbit b hlt).trans hused, hr⟩

end Recoverable

end Disk

theorem Consistent.recoverable {fs : Fs} (hc : Consistent fs)
    (hl : Layout (SuperBlock.fromBytes (fs.disk.block 0))) : fs.disk.Recoverable :=
  ⟨hc.sized, hl, hc.owned⟩

section Allocation

variable {d d' : Disk} {sb sb' : SuperBlock} {b : ℕ}

/-- The bit is set before the count in the superblock is changed. -/
theorem markAllocated_trail (h : d.Recoverable) (hl : Layout sb) (hb : b < 20480)
    (hm : markAllocated d sb b = some (d', sb')) : d.Trail Disk.Recoverable d' := by
  have hblk : 1 + b / 8 / blockSize < 6 := by
    simp only [blockSize]
    omega
  obtain ⟨d₂, hspec, hu⟩ := markAllocated_spec h.sized sb hb
  rw [hm] at hspec
  simp only [Option.some.injEq, Prod.mk.injEq] at hspec
  obtain ⟨rfl, rfl⟩ := hspec
  simp only [markAllocated, updateBit, locate,
    h.sized.readBlock (hblk.trans (by decide)), Option.bind_eq_bind,
    Option.bind_some, Option.some.injEq, Prod.mk.injEq, and_true] at hm
  generalize ((d.block (1 + b / 8 / blockSize)).modifyByte (b / 8 % blockSize) fun x =>
    x ||| UInt8.bitMask (b % 8)) = buf at hm
  subst hm
  have hkeep : ∀ c, 6 ≤ c → (d.writeBlock (1 + b / 8 / blockSize) buf).block c = d.block c :=
    fun c hc => d.block_writeBlock_of_ne buf (by omega)
  have h₁ : (d.writeBlock (1 + b / 8 / blockSize) buf).Recoverable := by
    have hne : 0 ≠ 1 + b / 8 / blockSize := Nat.ne_of_lt (Nat.lt_add_right _ Nat.one_pos)
    refine h.of_held_eq (h.sized.writeBlock (hblk.trans (by decide)) buf) (d.block_writeBlock_of_ne buf hne)
      (fun c hc hused => ?_) (Disk.held_congr (fun n _ => ?_) fun n hn hi => ?_)
    · have hbit := hu.bit c hc
      rw [writeSuperblock, bit_writeBlock_of_le _ _ (Or.inr rfl) hc, hused, ite_self] at hbit
      exact hbit
    · exact Disk.inode_eq_of_block_eq (hkeep _ (six_le_recordBlock n))
    · have := (h.owned.range n _ (hn.held ▸ Inode.indirectBlock_mem_refs hi)).1
      exact hkeep _ (by omega)
  exact ((Disk.Trail.refl h).write h₁).write (h₁.writeSuperblock (hl.setFreeBlocks _))

theorem allocateBlock_trail (h : d.Recoverable) (hl : Layout sb) {r : Option ℕ}
    (ha : allocateBlock d sb = some (r, d', sb')) : d.Trail Disk.Recoverable d' := by
  unfold allocateBlock at ha
  split_ifs at ha
  · simp only [Option.some.injEq, Prod.mk.injEq] at ha
    exact ha.2.1 ▸ .refl h
  obtain ⟨sbLocal, -, ha⟩ := Option.bind_eq_some_iff.mp ha
  obtain ⟨found, -, ha⟩ := Option.bind_eq_some_iff.mp ha
  cases found with
  | none =>
    simp only [Option.some.injEq, Prod.mk.injEq] at ha
    exact ha.2.1 ▸ .refl h
  | some b =>
    dsimp only at ha
    split_ifs at ha with hmax
    · simp only [Option.some.injEq, Prod.mk.injEq] at ha
      exact ha.2.1 ▸ .refl h
    · obtain ⟨⟨d₁, sb₁⟩, hmark, ha⟩ := Option.bind_eq_some_iff.mp ha
      simp only [Option.some.injEq, Prod.mk.injEq] at ha
      obtain ⟨-, rfl, -⟩ := ha
      exact markAllocated_trail h hl (Nat.lt_of_not_le hmax) hmark

/-- A block that has just been allocated is nobody's. -/
theorem Disk.Plain.of_alloc {fs fs' : Fs} (ho : Owned fs.disk)
    (hf : Footprint fs fs' [] [] [b] []) : fs'.disk.Plain b := by
  obtain ⟨hlow, hlt, hfree, hr⟩ := hf.fresh b (by simp)
  refine .of_not_held (by omega) hlt hr fun n hn => ?_
  rw [hf.held_eq ho (by simp) (by simp)] at hn
  rw [(ho.range n b hn).2.2.1] at hfree
  cases hfree

end Allocation

namespace Disk.Trail

variable {d d₁ : Disk}

theorem plain (h : d.Trail Recoverable d₁) {b : ℕ} (hb : d₁.Plain b) (buf : Block) :
    d.Trail Recoverable (d₁.writeBlock b buf) :=
  h.write (h.last.writeBlock hb buf)

theorem putInode (h : d.Trail Recoverable d₁) {i : Inode} {sb : SuperBlock}
    (hc : Consistent ⟨d₁.putInode i, sb⟩) : d.Trail Recoverable (d₁.putInode i) := by
  refine h.write (hc.recoverable ?_)
  dsimp only
  rw [Disk.block_putInode]
  · exact h.last.layout
  · have := six_le_recordBlock i.inodeNo.toNat
    omega

end Disk.Trail

theorem Disk.Sized.eq_of_writeInode {d d' : Disk} (hd : d.Sized) {sb : SuperBlock}
    (hl : Layout sb) {i : Inode} (hi : recordBlock i.inodeNo.toNat < 20480)
    (h : SimpleFS.writeInode d sb i = some d') : d' = d.putInode i :=
  Option.some.inj (h.symm.trans (hd.writeInode hl hi))

section Directory

variable {fs : Fs} {p : ℕ} {name : String} {d' : Disk} {sb' : SuperBlock}

theorem AddOutcome.consistent {fs' : Fs} {dir' : Inode} {e : DirEntry} {r : Except String Unit}
    (h : AddOutcome fs (fs.disk.inode p) name e r fs' dir') (hc : Consistent fs)
    (hp : fs.disk.Live p) : Consistent fs' := by
  cases h with
  | added _ ha => exact ha.consistent hc hp
  | _ => exact hc

theorem dirAddEntry_trail (hc : Consistent fs)
    (hl : Layout (SuperBlock.fromBytes (fs.disk.block 0))) (hp : fs.disk.Live p)
    (hroom : fs.disk.Roomy (dirAsks fs.disk (fs.disk.inode p))) {child : ℕ} {isDir : Bool}
    {now : Int64} {r : Except String Unit} {dir' : Inode}
    (h : dirAddEntry fs.disk fs.sb (fs.disk.inode p) name child isDir now =
      some (r, d', sb', dir')) : fs.disk.Trail Disk.Recoverable d' := by
  have hplaced := hc.placed hp
  have hstart := Disk.Trail.refl (hc.recoverable hl)
  have hend := (dirAddEntry_outcome hplaced (hc.owned.used hp) hc.owned.low hroom h).consistent hc hp
  unfold dirAddEntry at h
  obtain ⟨found, hfind, h⟩ := Option.bind_eq_some_iff.mp h
  cases found with
  | some slot =>
    simp only [Option.isSome_some, if_true, Option.some.injEq, Prod.mk.injEq] at h
    exact h.2.1 ▸ hstart
  | none =>
    simp only [Option.isSome_none, Bool.false_eq_true, if_false] at h
    obtain ⟨free, hfree, h⟩ := Option.bind_eq_some_iff.mp h
    rcases findFreeSlot_cases hplaced.sized hplaced.onDisk hfree with
      ⟨rfl, hfull⟩ | ⟨old, b, off, pre, post, rfl, hsplit, -⟩
    · dsimp only at h
      split_ifs at h with hcount
      · obtain ⟨⟨newBlock, d₁, sb₁⟩, halloc, h⟩ := Option.bind_eq_some_iff.mp h
        cases newBlock with
        | none =>
          simp only [Option.some.injEq, Prod.mk.injEq] at h
          exact h.2.1 ▸ allocateBlock_trail hstart.last hc.layout halloc
        | some b =>
          obtain ⟨d₂, hput, h⟩ := Option.bind_eq_some_iff.mp h
          simp only [Option.some.injEq, Prod.mk.injEq] at h
          obtain ⟨-, rfl, rfl, -⟩ := h
          have hasks : dirAsks fs.disk (fs.disk.inode p) = 1 := by
            rw [dirAsks, if_pos]
            have hfull' : ∀ x ∈ (fs.disk.inode p).table fs.disk, x.isEmpty = false := by
              intro x hx
              obtain ⟨s, hs, rfl⟩ := List.mem_map.mp hx
              exact hfull s hs
            simpa [List.all_eq_true] using ⟨hfull', hcount⟩
          rw [hasks] at hroom
          obtain ⟨-, hf, -⟩ := Footprint.of_allocateBlock hc.sized hc.layout hc.owned.low hroom
            halloc
          have hplain := Disk.Plain.of_alloc hc.owned hf
          have hdata := (allocateBlock_trail hstart.last hc.layout halloc).plain hplain
            ((Vector.zeros blockSize).copyAt 0 dirEntrySize
              (DirEntry.new child name isDir).toBytes.byteAt)
          obtain rfl := hdata.last.sized.eq_of_writeInode hf.layout
            (by exact hplaced.inodeNo.recordBlock_lt) hput
          exact hstart.trans (hdata.putInode hend)
      · simp only [Option.some.injEq, Prod.mk.injEq] at h
        exact h.2.1 ▸ hstart
    · dsimp only at h
      obtain ⟨d₂, hput, h⟩ := Option.bind_eq_some_iff.mp h
      simp only [Option.some.injEq, Prod.mk.injEq] at h
      obtain ⟨-, rfl, rfl, -⟩ := h
      have hb := (Inode.mem_slots (hsplit ▸ List.mem_append_right pre List.mem_cons_self)).1
      have hdata := hstart.plain (.of_mem_blocks hc.owned hp hb) ((fs.disk.block b).copyAt off
        dirEntrySize (DirEntry.new child name isDir).toBytes.byteAt)
      obtain rfl := hdata.last.sized.eq_of_writeInode hc.layout
        (by exact hplaced.inodeNo.recordBlock_lt) hput
      exact hdata.putInode hend

/-- The entry is cleared in its block, then the record of the directory is stored. -/
theorem dirRemoveEntry_trail (hc : Consistent fs)
    (hl : Layout (SuperBlock.fromBytes (fs.disk.block 0))) (hp : fs.disk.Live p) {now : Int64}
    {r : Except String Unit} {dir' : Inode}
    (h : dirRemoveEntry fs.disk fs.sb (fs.disk.inode p) name now = some (r, d', dir')) :
    fs.disk.Trail Disk.Recoverable d' := by
  have hplaced := hc.placed hp
  have hcases := dirRemoveEntry_cases hplaced h
  have hstart := Disk.Trail.refl (hc.recoverable hl)
  unfold dirRemoveEntry at h
  obtain ⟨found, hfind, h⟩ := Option.bind_eq_some_iff.mp h
  cases found with
  | none =>
    simp only [Option.some.injEq, Prod.mk.injEq] at h
    exact h.2.1 ▸ hstart
  | some slot =>
    obtain ⟨e, b, off⟩ := slot
    obtain ⟨pre, post, hfirst⟩ := dirFind_eq_some hplaced.sized hplaced.onDisk hfind
    have hb := (Inode.mem_slots (hfirst.split ▸ List.mem_append_right pre List.mem_cons_self)).1
    have hdata := hstart.plain (.of_mem_blocks hc.owned hp hb)
      ((fs.disk.block b).copyAt (off + 5) 1 fun _ => 0)
    obtain ⟨buf, hread, h⟩ := Option.bind_eq_some_iff.mp h
    obtain ⟨-, rfl⟩ := hc.sized.readBlock_eq_some hread
    obtain ⟨d₂, hput, h⟩ := Option.bind_eq_some_iff.mp h
    obtain rfl := hdata.last.sized.eq_of_writeInode hc.layout
      (by exact hplaced.inodeNo.recordBlock_lt) hput
    simp only [Option.some.injEq, Prod.mk.injEq] at h
    obtain ⟨rfl, rfl, -⟩ := h
    rcases hcases with ⟨herror, -⟩ | ⟨-, hrem⟩
    · cases herror
    · exact hdata.putInode (hrem.consistent hc hp)

end Directory

section Growth

variable {fs fs₁ : Fs} {i : Inode} {d' : Disk} {sb' : SuperBlock}

theorem Disk.Plain.of_footprint {own new freed : List ℕ} {b : ℕ} (h : fs.disk.Plain b)
    (hf : Footprint fs fs₁ [] own new freed) : fs₁.disk.Plain b := by
  refine ⟨h.low, h.lt, h.record, fun n hn => ?_⟩
  rw [hf.inode n hn.1 (by simp)]
  exact h.indirect n ((hf.live_iff (by simp)).mp hn)

/-- While a file is growing, its record is the old one, and holds what it held. -/
theorem Grown.held_eq {n m : ℕ} {new : List ℕ} (hc : Consistent fs) (hn : fs.disk.Live n)
    (h : Grown fs fs₁ (fs.disk.inode n) i m new) (q : ℕ) : fs₁.disk.held q = fs.disk.held q := by
  have hs := Stalled.of_grown hc hn h
  by_cases hq : q = n
  · have hlive : fs₁.disk.Live n := (h.footprint.live_iff (by simp)).mpr hn
    rw [hq, hlive.held, hs.inode, hs.refs, hn.held]
  · refine h.footprint.held_eq hc.owned (by simp) fun b hb hheld => ?_
    rcases slack_held hn b hb with rfl | hb
    · have := (hc.owned.range q 0 hheld).1
      omega
    · exact hq (hc.owned.exclusive.owner_unique hheld hb)

/-- A new block is marked, then entered in the map, then zeroed. -/
theorem growStep_trail (hc : Consistent fs)
    (hl : Layout (SuperBlock.fromBytes (fs.disk.block 0))) (hp : Placed fs i) (hlink : i.Linked)
    (hbound : i.blockCount.toNat < 20) {n : ℕ} (hroom : fs.disk.Roomy (i.growAsks (n + 1))) {g : Fs.Growth}
    (h : Fs.growStep fs.disk fs.sb i = some (g, d', sb'))
    (hend : ∀ i', g = .grown i' → ∀ m, d'.held m = fs.disk.held m) :
    fs.disk.Trail Disk.Recoverable d' := by
  unfold Fs.growStep at h
  obtain ⟨⟨newBlock, d₁, sb₁⟩, halloc, h⟩ := Option.bind_eq_some_iff.mp h
  have htrail := allocateBlock_trail (hc.recoverable hl) hc.layout halloc
  cases newBlock with
  | none =>
    simp only [Option.some.injEq, Prod.mk.injEq] at h
    exact h.2.1 ▸ htrail
  | some b =>
    have hasks : i.growAsks (n + 1) = i.growAsks (n + 1) - 1 + 1 := by
      unfold Inode.growAsks
      omega
    rw [hasks] at hroom
    obtain ⟨-, hf, hroom₁⟩ := Footprint.of_allocateBlock hc.sized hc.layout hc.owned.low hroom halloc
    have hplain := Disk.Plain.of_alloc hc.owned hf
    obtain ⟨⟨i₁, d₂, sb₂⟩, hattach, h⟩ := Option.bind_eq_some_iff.mp h
    unfold Fs.attachBlock at hattach
    simp only [directBlockCount] at hattach
    split_ifs at hattach with h10 h10' hover
    · simp only [Option.some.injEq, Prod.mk.injEq] at hattach
      obtain ⟨rfl, rfl, rfl⟩ := hattach
      simp only [Option.some.injEq, Prod.mk.injEq] at h
      obtain ⟨-, rfl, -⟩ := h
      exact htrail.plain hplain _
    · obtain ⟨⟨indirect, d₃, sb₃⟩, halloc', hattach⟩ := Option.bind_eq_some_iff.mp hattach
      have htrail' := htrail.trans (allocateBlock_trail htrail.last hf.layout halloc')
      cases indirect with
      | none =>
        simp only [Option.some.injEq, Prod.mk.injEq] at hattach
        obtain ⟨rfl, rfl, rfl⟩ := hattach
        simp only [Option.some.injEq, Prod.mk.injEq] at h
        exact h.2.1 ▸ htrail'
      | some c =>
        simp only [Option.some.injEq, Prod.mk.injEq] at hattach
        obtain ⟨rfl, rfl, rfl⟩ := hattach
        simp only [Option.some.injEq, Prod.mk.injEq] at h
        obtain ⟨-, rfl, -⟩ := h
        have hasks' : i.growAsks (n + 1) - 1 = i.growAsks (n + 1) - 2 + 1 := by
          unfold Inode.growAsks
          rw [if_pos (by omega)]
          omega
        rw [hasks'] at hroom₁
        obtain ⟨-, hf₂, -⟩ := Footprint.of_allocateBlock hf.sized hf.layout
          (hf.lowUsed hc.owned.low) hroom₁ halloc'
        have howned : Owned (Fs.mk d₁ sb₁).disk := htrail.last.owned
        have hplain' := Disk.Plain.of_alloc howned hf₂
        have hplain₂ : d₃.Plain b := hplain.of_footprint hf₂
        have hentered := htrail'.plain hplain'
          ((Vector.zeros blockSize).copyAt 0 2 (Vector.leByte (b % 2 ^ 16)))
        exact hentered.plain (hplain₂.writeBlock hplain' _) _
    · simp only [blockSize] at hover
      omega
    · obtain ⟨buf, hread, hattach⟩ := Option.bind_eq_some_iff.mp hattach
      simp only [Option.some.injEq, Prod.mk.injEq] at hattach
      obtain ⟨rfl, rfl, rfl⟩ := hattach
      simp only [Option.some.injEq, Prod.mk.injEq] at h
      obtain ⟨rfl, rfl, -⟩ := h
      have hmem := Inode.indirectBlock_mem_refs (d := fs.disk) (hlink (by omega))
      obtain ⟨hlow, hlt, hr⟩ := hp.range _ hmem
      generalize buf.copyAt ((i.blockCount.toNat - 10) * 2) 2 (Vector.leByte (b % 2 ^ 16)) = buf'
        at hend ⊢
      generalize i.indirectBlock.toNat = c at hmem hlow hlt hr hend ⊢
      -- the entry lies behind the blocks that the record on the disk refers to
      have hinode : ∀ m, InodeNo m → (d₁.writeBlock c buf').inode m = d₁.inode m := fun m hm =>
        d₁.inode_writeBlock_of_ne buf' fun heq => hr ⟨m, hm, heq⟩
      have hplain' : (d₁.writeBlock c buf').Plain b := by
        refine ⟨hplain.low, hplain.lt, hplain.record, fun m hm => ?_⟩
        rw [hinode m hm.1]
        exact hplain.indirect m ⟨hm.1, by rw [← hinode m hm.1]; exact hm.2⟩
      have hheld : ∀ m, (d₁.writeBlock c buf').held m = d₁.held m := fun m => by
        rw [← hplain'.held_writeBlock (Vector.zeros blockSize), hend _ rfl,
          hf.held_eq hc.owned (by simp) (by simp)]
      have hsuper : (d₁.writeBlock c buf').block 0 = d₁.block 0 :=
        d₁.block_writeBlock_of_ne buf' (by omega)
      have hlinked := htrail.last.of_held_eq (htrail.last.sized.writeBlock hlt buf') hsuper
        (fun x hx hused => by rw [bit_writeBlock_of_le d₁ buf' (Or.inl (by omega)) hx, hused]) hheld
      exact (htrail.write hlinked).plain hplain' _

theorem growLoop_trail {n : ℕ} (hc : Consistent fs) (hn : fs.disk.Live n)
    (hlink : (fs.disk.inode n).Linked) {turns : ℕ} : ∀ {fs₁ : Fs} {i : Inode} {m : ℕ} {new : List ℕ},
    Grown fs fs₁ (fs.disk.inode n) i m new → Layout (SuperBlock.fromBytes (fs₁.disk.block 0)) →
    (0 < turns → i.blockCount.toNat + turns ≤ 20) → fs₁.disk.Roomy (i.growAsks turns) →
    ∀ {g : Fs.Growth} {d' : Disk} {sb' : SuperBlock},
    Fs.growLoop turns fs₁.disk fs₁.sb i = some (g, d', sb') → fs₁.disk.Trail Disk.Recoverable d' := by
  have hp := hc.placed hn
  have hused := hc.owned.used hn
  induction turns with
  | zero =>
    intro fs₁ i m new hg hl _ _ g d' sb' h
    simp only [Fs.growLoop, Option.some.injEq, Prod.mk.injEq] at h
    exact h.2.1 ▸ .refl ((Stalled.of_grown hc hn hg).consistent.recoverable hl)
  | succ turns ih =>
    intro fs₁ i m new hg hl hbound hroom g d' sb' h
    have hc₁ := (Stalled.of_grown hc hn hg).consistent
    unfold Fs.growLoop at h
    obtain ⟨⟨g₁, d₁, sb₁⟩, hstep, h⟩ := Option.bind_eq_some_iff.mp h
    have hcases := growStep_outcome (hg.placed hp) (hg.used hp hused) hc₁.owned.low (by omega) hroom
      hstep
    have htrail := growStep_trail hc₁ hl (hg.placed hp) (hg.linked hlink) (by omega) hroom
      hstep ?_
    · rcases hcases with ⟨rfl, -⟩ | ⟨rfl, -⟩ | ⟨i₁, new₁, rfl, hg₁, hroom₁⟩
      · simp only [Option.some.injEq, Prod.mk.injEq] at h
        exact h.2.1 ▸ htrail
      · simp only [Option.some.injEq, Prod.mk.injEq] at h
        exact h.2.1 ▸ htrail
      · have hcount := hg₁.blockCount
        have hrest := @ih ⟨d₁, sb₁⟩ i₁ _ _ (hg.trans hg₁ hp hused) htrail.last.layout (by omega)
          hroom₁ g d' sb' h
        exact htrail.trans hrest
    · rintro i' rfl q
      rcases hcases with ⟨hcase, -⟩ | ⟨hcase, -⟩ | ⟨i₁, new₁, hcase, hg₁, -⟩
      · cases hcase
      · cases hcase
      · rw [hg.held_eq hc hn]
        exact (hg.trans hg₁ hp hused).held_eq hc hn q

end Growth

/-- The data goes to blocks that the file has already. -/
theorem writeLoop_trail {i : Inode} {turns : ℕ} : ∀ {d d' : Disk} {k off : ℕ} {data : List UInt8}
    {found : Bool}, d.Recoverable → i.OnDisk d → (i.refs d).Nodup →
    (∀ b ∈ i.blocks d, d.Plain b) → data.length ≤ turns → off < 510 →
    k * 510 + off + data.length ≤ 510 * i.blockCount.toNat →
    Fs.writeLoop i turns d k off data = some (found, d') → d.Trail Disk.Recoverable d' := by
  induction turns with
  | zero =>
    intro d d' k off data found hd _ _ _ _ _ _ h
    simp only [Fs.writeLoop, Option.some.injEq, Prod.mk.injEq] at h
    exact h.2 ▸ .refl hd
  | succ turns ih =>
    intro d d' k off data found hd hon hnodup hplain hlen hoff hrange h
    rw [Fs.writeLoop] at h
    split_ifs at h with hz
    · simp only [Option.some.injEq, Prod.mk.injEq] at h
      exact h.2 ▸ .refl hd
    have hk : k < i.blockCount.toNat := by omega
    rw [hon.getBlock hd.sized, Option.bind_eq_bind, Option.bind_some] at h
    cases hb : Inode.pointer (i.ptr d k) with
    | none =>
      rw [hb] at h
      simp only [Option.some.injEq, Prod.mk.injEq] at h
      exact h.2 ▸ .refl hd
    | some b =>
      obtain ⟨rfl, h0⟩ := Inode.pointer_eq_some.mp hb
      obtain ⟨m, hmin, hmr, hfit, hlast⟩ := piece_spec data.length hoff
      simp only [hb, hon.readBlock hd.sized hk hb, Option.bind_eq_bind, Option.bind_some, pageSize,
        blockSize, Nat.reduceSub, hmin] at h
      have hmem := Inode.mem_blocks_of_ptr hk h0
      have hdrop : (data.drop m).length = data.length - m := List.length_drop
      generalize (d.block (i.ptr d k)).copyAt off m (fun j => data[j]?.getD 0) = buf at h
      have hind := Inode.block_indirect_writeBlock hmem hnodup buf
      have hrefs : i.refs (d.writeBlock (i.ptr d k) buf) = i.refs d := Inode.refs_congr hind
      have hblocks : i.blocks (d.writeBlock (i.ptr d k) buf) = i.blocks d := Inode.blocks_congr hind
      have hstart := (Disk.Trail.refl hd).plain (hplain _ hmem) buf
      refine hstart.trans (ih hstart.last (fun c hc => hon c (hrefs ▸ hc)) (by rwa [hrefs])
        (fun c hc => ?_) (by omega) (by omega) (hdrop ▸ piece_rest hlast hk hrange) h)
      rw [hblocks] at hc
      exact (hplain c hc).writeBlock (hplain _ hmem) buf

end SimpleFS
