import SimpleFS.Image.Tree
import SimpleFS.Requests.Create

/-! The file system that formatting makes. Only the blocks that it needs are written: every other
block keeps what the image held before. -/
namespace SimpleFS
open Bitmap

/-- `fs` holds the empty root directory and otherwise what the disk `d` held, and the blocks
`taken` are marked used. -/
structure Formatted (d : Disk) (now : Int64) (taken : ℕ → Bool) (fs : Fs) : Prop where
  sized : fs.disk.Sized
  layout : Layout fs.sb
  synced : fs.Synced
  balance : fs.balance = 20480
  low : ∀ b ≤ 31, taken b = true
  bit : ∀ b < 20480, fs.disk.bit b = taken b
  root : fs.disk.inode 1 = madeInode 1 31 now
  rootBlock : fs.disk.block 31 = Fs.dotsBlock 1 1
  inode : ∀ n, InodeNo n → n ≠ 1 → fs.disk.inode n = d.inode n
  block : ∀ c, 7 ≤ c → c ≠ 31 → fs.disk.block c = d.block c

/-- The lowest clear bit is found from both sides. -/
private theorem LeastFree.eq_of {d : Disk} {a b : ℕ} (h : LeastFree d b) (hfree : d.bit a = false)
    (hlow : ∀ c < a, d.bit c = true) : b = a := by
  rcases Nat.lt_trichotomy b a with hlt | heq | hgt
  · have := h.free
    rw [hlow b hlt] at this
    cases this
  · exact heq
  · have := h.least a hgt
    rw [hfree] at this
    cases this

theorem formatNewFs_spec {d : Disk} (hd : d.Sized) (now : Int64) :
    ∃ fs, formatNewFs d now = some fs ∧ Formatted d now (fun b => decide (b ≤ 31)) fs := by
  have hsuper := hd.writeBlock (show 0 < 20480 by decide) SuperBlock.initial.toBlock
  obtain ⟨hsized, hbit, hblock⟩ := @initBitmap_spec _ hsuper .initial (by decide) (by decide)
  generalize hd₁ : initBitmap (d.writeBlock 0 SuperBlock.initial.toBlock) .initial = d₁ at *
  have hsync : SuperBlock.fromBytes (d₁.block 0) = .initial := by
    rw [hblock 0 (Or.inl rfl), Disk.block_writeBlock_self, SuperBlock.fromBytes_toBlock]
  obtain ⟨r, d₂, sb₂, ha, hnone⟩ := @allocateBlock_returns d₁ .initial hsized
    (by rw [hsync]; decide) (by rw [hsync]; decide)
  rcases allocateBlock_cases hsized ha with ⟨rfl, -⟩ | ⟨b, rfl, -, hleast, rfl, hu⟩
  · rcases hnone rfl with hzero | hfull
    · exact absurd hzero (by decide)
    · have := hfull 31 (by decide)
      rw [hbit 31 (by decide)] at this
      cases this
  obtain rfl : b = 31 := hleast.eq_of (by rw [hbit 31 (by decide)]; rfl) fun c hc => by
    rw [hbit c (by omega), decide_eq_true hc]
  let sb : SuperBlock :=
    { SuperBlock.initial with freeBlocks := SuperBlock.initial.freeBlocks - 1, rootInode := 1 }
  have hlayout : Layout sb := by
    constructor <;> decide
  have hno : (madeInode 1 31 now).inodeNo.toNat = 1 := rfl
  have hrecord : recordBlock (madeInode 1 31 now).inodeNo.toNat < 20480 := by
    rw [hno]
    decide
  have hd₃ := hu.sized.writeBlock (show 31 < 20480 by decide) (Fs.dotsBlock 1 1)
  have hstore : writeInode (d₂.writeBlock 31 (Fs.dotsBlock 1 1))
      { SuperBlock.initial with freeBlocks := SuperBlock.initial.freeBlocks - 1 }
      (madeInode 1 31 now) =
        some ((d₂.writeBlock 31 (Fs.dotsBlock 1 1)).putInode (madeInode 1 31 now)) :=
    hd₃.writeInode hlayout hrecord
  refine ⟨⟨writeSuperblock ((d₂.writeBlock 31 (Fs.dotsBlock 1 1)).putInode (madeInode 1 31 now)) sb,
    sb⟩, ?_, ?_⟩
  · rw [formatNewFs, initSuperblock_eq]
    dsimp only
    rw [hd₁, ha]
    simp only [Option.bind_eq_bind, Option.bind_some]
    exact Option.bind_eq_some_iff.mpr ⟨_, hstore, rfl⟩
  have hput : ∀ c, c ≠ 0 → c ≠ 6 → c ≠ 31 → (writeSuperblock
      ((d₂.writeBlock 31 (Fs.dotsBlock 1 1)).putInode (madeInode 1 31 now)) sb).block c =
        d₂.block c := by
    intro c h0 h6 h31
    rw [writeSuperblock, Disk.block_writeBlock_of_ne _ _ h0,
      Disk.block_putInode _ (madeInode 1 31 now) (by rw [hno]; exact h6),
      Disk.block_writeBlock_of_ne _ _ h31]
  have hbits : ∀ b < 20480, (writeSuperblock
      ((d₂.writeBlock 31 (Fs.dotsBlock 1 1)).putInode (madeInode 1 31 now)) sb).bit b =
        decide (b ≤ 31) := by
    intro b hb
    rw [writeSuperblock, bit_writeBlock_of_le _ _ (Or.inr rfl) hb, Disk.bit_putInode _ _ hb,
      bit_writeBlock_of_le _ _ (Or.inl (by decide)) hb, hu.bit b hb, hbit b hb, Bool.eq_iff_iff]
    split_ifs with h
    · simp [h]
    · simp only [decide_eq_true_eq]
      omega
  refine ⟨(hd₃.putInode hrecord).writeBlock (by decide) _, hlayout, ?_, ?_,
    fun b hb => decide_eq_true hb, hbits, ?_, ?_, fun n hn hne => ?_, fun c hc h31 => ?_⟩
  · rw [Fs.Synced, writeSuperblock, Disk.block_writeBlock_self, SuperBlock.fromBytes_toBlock]
  · have hused : (Finset.range 20480).filter (fun b => (writeSuperblock ((d₂.writeBlock 31
        (Fs.dotsBlock 1 1)).putInode (madeInode 1 31 now)) sb).bit b = true) = Finset.range 32 := by
      ext b
      simp only [Finset.mem_filter, Finset.mem_range]
      constructor
      · rintro ⟨hb, hset⟩
        rw [hbits b hb, decide_eq_true_eq] at hset
        omega
      · intro hb
        refine ⟨by omega, ?_⟩
        rw [hbits b (by omega), decide_eq_true_eq]
        omega
    rw [Fs.balance, Disk.usedCount, hused, Finset.card_range]
    exact (by decide : SuperBlock.initial.freeBlocks - 1 + UInt32.ofNat 32 = 20480)
  · rw [writeSuperblock, Disk.inode_writeBlock_of_ne _ _ (by decide), Disk.inode_putInode,
      if_pos hno.symm]
  · rw [writeSuperblock, Disk.block_writeBlock_of_ne _ _ (by decide),
      Disk.block_putInode _ (madeInode 1 31 now) (by rw [hno]; decide), Disk.block_writeBlock_self]
  · have hrec : recordBlock n ≠ 0 ∧ recordBlock n ≠ 31 := by
      rcases hn with rfl | ⟨hlo, hhi⟩ | ⟨hlo, hhi⟩ <;> unfold recordBlock <;> omega
    rw [writeSuperblock, Disk.inode_writeBlock_of_ne _ _ hrec.1, Disk.inode_putInode, hno,
      if_neg hne, Disk.inode_writeBlock_of_ne _ _ hrec.2, hu.inode n]
    refine Disk.inode_eq_of_block_eq ?_
    rw [hblock _ (Or.inr (six_le_recordBlock n)), Disk.block_writeBlock_of_ne _ _ hrec.1]
  · rw [hput c (by omega) (by omega) h31, hu.block c (by omega), hblock c (Or.inr (by omega)),
      Disk.block_writeBlock_of_ne _ _ (by omega)]

/-- No inode record but that of the root is in use. -/
def Disk.Blank (d : Disk) : Prop := ∀ n, InodeNo n → n ≠ 1 → (d.inode n).nlink = 0

namespace Formatted

variable {d : Disk} {now : Int64} {taken : ℕ → Bool} {fs : Fs}

theorem live_root (h : Formatted d now taken fs) : fs.disk.Live 1 :=
  ⟨Or.inl rfl, by rw [h.root]; exact nlink_madeInode _ _ _⟩

theorem isDirectory_root (h : Formatted d now taken fs) : fs.disk.IsDirectory 1 :=
  ⟨h.live_root, by rw [h.root]; exact isDir_madeInode _ _ _⟩

theorem live_iff (h : Formatted d now taken fs) (hb : d.Blank) {n : ℕ} : fs.disk.Live n ↔ n = 1 := by
  constructor
  · intro hn
    by_contra hne
    exact hn.2 (by rw [h.inode n hn.1 hne, hb n hn.1 hne])
  · rintro rfl
    exact h.live_root

theorem blocks_root (h : Formatted d now taken fs) : (fs.disk.inode 1).blocks fs.disk = [31] := by
  rw [h.root, blocks_madeInode (by decide) (by decide)]

theorem refs_root (h : Formatted d now taken fs) : (fs.disk.inode 1).refs fs.disk = [31] := by
  rw [Inode.refs, h.blocks_root, h.root, if_pos (show (madeInode 1 31 now).indirectBlock = 0 from rfl),
    List.append_nil]

theorem table_root (h : Formatted d now taken fs) : (fs.disk.inode 1).table fs.disk = dots 1 1 := by
  rw [Inode.table, Inode.slots, h.blocks_root, List.flatMap_singleton, h.rootBlock,
    map_fst_blockSlots_dots]
  rfl

theorem entries_root (h : Formatted d now taken fs) :
    (fs.disk.inode 1).entries fs.disk = [.new 1 "." true, .new 1 ".." true] := by
  rw [Inode.entries, h.table_root]
  simp [dots, SlotTable.live, DirEntry.isEmpty_new]

theorem held_eq (h : Formatted d now taken fs) (hb : d.Blank) (n : ℕ) :
    fs.disk.held n = if n = 1 then [31] else [] := by
  split_ifs with hn
  · rw [hn, h.live_root.held, h.refs_root]
  · exact Disk.held_of_not_live fun hl => hn ((h.live_iff hb).mp hl)

theorem not_isRecordBlock : ¬ IsRecordBlock 31 := by
  rintro ⟨n, hn, hrec⟩
  unfold recordBlock at hrec
  rcases hn with rfl | ⟨hlo, hhi⟩ | ⟨hlo, hhi⟩ <;> omega

theorem consistent (h : Formatted d now taken fs) (hb : d.Blank) : Consistent fs where
  sized := h.sized
  layout := h.layout
  owned := by
    refine ⟨fun b hlt => ?_, fun n b hmem => ?_, fun n => ?_, fun m n hne b hm hn => ?_⟩
    · rw [h.bit b (by omega), h.low b (by omega)]
    · rw [h.held_eq hb] at hmem
      split_ifs at hmem
      · rw [List.mem_singleton.mp hmem, h.bit 31 (by decide), h.low 31 (le_refl _)]
        exact ⟨le_refl _, by decide, rfl, not_isRecordBlock⟩
      · simp at hmem
    · rw [h.held_eq hb]
      split_ifs
      · exact List.nodup_singleton _
      · exact List.nodup_nil
    · rw [h.held_eq hb] at hm hn
      split_ifs at hm hn with h1 h2
      · exact hne (h1.trans h2.symm)
      all_goals simp at hm hn

theorem mapped (h : Formatted d now taken fs) (hb : d.Blank) {n : ℕ} (hn : fs.disk.Live n) :
    (fs.disk.inode n).Mapped fs.disk := by
  obtain rfl := (h.live_iff hb).mp hn
  rw [Inode.mapped_iff_length_blocks, h.blocks_root, h.root]
  rfl

theorem listed_eq_nil (h : Formatted d now taken fs) (hb : d.Blank) (q : ℕ) : fs.disk.listed q = [] := by
  by_cases hq : fs.disk.IsDirectory q
  · obtain rfl := (h.live_iff hb).mp hq.1
    rw [hq.listed, h.entries_root, List.filter_eq_nil_iff]
    intro e he
    rw [DirEntry.ordinary_iff]
    rcases List.mem_pair.mp he with rfl | rfl
    · simp [(DirEntry.named_new_dot 1).1]
    · simp [(DirEntry.named_new_dotdot 1).2]
  · exact Disk.listed_of_not_isDirectory hq

theorem children_eq_nil (h : Formatted d now taken fs) (hb : d.Blank) (q : ℕ) :
    fs.disk.children q = [] := by
  rw [Disk.children, h.listed_eq_nil hb, List.map_nil]

theorem reachable (h : Formatted d now taken fs) (hb : d.Blank) {q : ℕ} :
    fs.disk.Reachable q ↔ q = 1 := by
  constructor
  · exact fun hq => (h.live_iff hb).mp hq.isDirectory.1
  · rintro rfl
    exact .root h.isDirectory_root

theorem treeSound (h : Formatted d now taken fs) (hb : d.Blank) : TreeSound fs.disk := by
  have hdot := DirEntry.named_new_dot 1
  have hdotdot := DirEntry.named_new_dotdot 1
  refine ⟨⟨fun q e he => ?_, fun q => ?_, fun p q _ x hx => ?_⟩, fun q e he => ?_, fun q hq => ?_,
    fun q hq => ?_, fun q hq => ?_⟩
  · rw [h.listed_eq_nil hb] at he
    simp at he
  · rw [h.children_eq_nil hb]
    exact List.nodup_nil
  · rw [h.children_eq_nil hb] at hx
    simp at hx
  · rw [h.listed_eq_nil hb] at he
    simp at he
  · obtain rfl := (h.reachable hb).mp hq
    exact ⟨.new 1 "." true, by simp [h.entries_root, hdot.1, hdotdot.1], rfl⟩
  · obtain rfl := (h.reachable hb).mp hq
    exact ⟨.new 1 ".." true, by simp [h.entries_root, hdot.2, hdotdot.2], fun _ => rfl,
      fun p h1 => absurd rfl h1⟩
  · obtain rfl := (h.reachable hb).mp hq
    exact .refl

end Formatted

/-- The disk that an empty image is truncated to. -/
def Disk.empty : Disk := (Disk.ofImage []).truncate diskSize

theorem Disk.byte_empty (k : ℕ) : Disk.empty.byte k = 0 := by
  simp [Disk.empty, Disk.truncate, Disk.ofImage]

theorem Disk.block_empty (b : ℕ) : Disk.empty.block b = Vector.zeros blockSize := by
  simp only [Disk.block, Disk.byte_empty]
  rfl

theorem Disk.blank_empty : Disk.empty.Blank := by
  intro n _ _
  rw [Disk.inode, Disk.block_empty]
  show UInt16.ofNat _ = 0
  rw [Vector.readLE_slice _ (by decide), Vector.readLE_zeros]
  rfl

/-- Mounting an empty image formats it. -/
theorem mount_nil (now : Int64) : ∃ fs, mount [] now = some fs ∧
    Formatted .empty now (fun b => decide (b ≤ 31)) fs :=
  formatNewFs_spec (d := .empty) rfl now

section Reallocation

variable {d : Disk} {now : Int64} {taken : ℕ → Bool} {fs : Fs}

/-- The disk with every block marked used. -/
def Fs.sealed (fs : Fs) : Fs :=
  let sb := { fs.sb with freeBlocks := 0 }
  ⟨writeSuperblock ((List.range 5).foldl
    (fun d i => d.writeBlock (1 + i) (Vector.ofFn fun _ => 0xFF)) fs.disk) sb, sb⟩

theorem Formatted.sealed (h : Formatted d now taken fs) :
    Formatted d now (fun _ => true) fs.sealed := by
  obtain ⟨hsized, hblock⟩ := foldl_writeBlock h.sized (fun _ => Vector.ofFn fun _ => 0xFF)
    (m := 5) (by decide)
  have hbits : ∀ b < 20480, fs.sealed.disk.bit b = true := by
    intro b hb
    have hin : b / 8 % blockSize < blockSize := Nat.mod_lt _ (by decide)
    rw [Fs.sealed, writeSuperblock, bit_writeBlock_of_le _ _ (Or.inr rfl) hb, Disk.bit, hblock,
      if_pos (by simp only [blockSize]; omega), Vector.byteAt_ofFn _ hin]
    exact UInt8.bit_full _ (Nat.mod_lt _ (by decide))
  have hkeep : ∀ c, 6 ≤ c → fs.sealed.disk.block c = fs.disk.block c := by
    intro c hc
    rw [Fs.sealed, writeSuperblock, Disk.block_writeBlock_of_ne _ _ (by omega), hblock,
      if_neg (by omega)]
  have hinode : ∀ n, fs.sealed.disk.inode n = fs.disk.inode n := fun n =>
    Disk.inode_eq_of_block_eq (hkeep _ (six_le_recordBlock n))
  refine ⟨hsized.writeBlock (by decide) _, h.layout.setFreeBlocks 0, ?_, ?_, fun _ _ => rfl, hbits,
    (hinode 1).trans h.root, (hkeep 31 (by decide)).trans h.rootBlock,
    fun n hn hne => (hinode n).trans (h.inode n hn hne),
    fun c hc h31 => (hkeep c (by omega)).trans (h.block c hc h31)⟩
  · rw [Fs.Synced, Fs.sealed, writeSuperblock, Disk.block_writeBlock_self,
      SuperBlock.fromBytes_toBlock]
  · have hused : fs.sealed.disk.usedCount = 20480 := by
      rw [Disk.usedCount, Finset.filter_true_of_mem fun b hb => hbits b (Finset.mem_range.mp hb),
        Finset.card_range]
    rw [Fs.balance, hused]
    exact (by decide : (0 : UInt32) + UInt32.ofNat 20480 = 20480)

/-- One more block is marked free. -/
theorem Formatted.free (h : Formatted d now taken fs) {b : ℕ} (hlow : 32 ≤ b) (hb : b < 20480)
    (hused : taken b = true) :
    ∃ fs', Formatted d now (fun c => taken c && !decide (c = b)) fs' := by
  obtain ⟨d', -, hu⟩ := markFree_spec h.sized fs.sb hb
  have hf := Footprint.free h.layout hb ((h.bit b hb).trans hused) rfl hu
  refine ⟨_, hu.sized, hf.layout, hu.super, hf.balance.trans h.balance, fun c hc => ?_,
    fun c hc => ?_, (hu.inode 1).trans h.root, (hu.block 31 (by decide)).trans h.rootBlock,
    fun n hn hne => (hu.inode n).trans (h.inode n hn hne),
    fun c hc h31 => (hu.block c (by omega)).trans (h.block c hc h31)⟩
  · simp only [h.low c hc, Bool.true_and, Bool.not_eq_true', decide_eq_false_iff_not]
    omega
  · rw [hu.bit c hc, h.bit c hc]
    split_ifs with hcb <;> simp [hcb]

/-- A formatted disk can have any of its data blocks free. -/
theorem exists_formatted (now : Int64) (free : List ℕ) (hn : free.Nodup)
    (hr : ∀ b ∈ free, 32 ≤ b ∧ b < 20480) :
    ∃ fs, Formatted .empty now (fun b => !decide (b ∈ free)) fs := by
  induction free with
  | nil =>
    obtain ⟨fs, -, h⟩ := mount_nil now
    exact ⟨fs.sealed, h.sealed⟩
  | cons b free ih =>
    obtain ⟨hnot, hn⟩ := List.nodup_cons.mp hn
    obtain ⟨hlow, hb⟩ := hr b List.mem_cons_self
    obtain ⟨fs, h⟩ := ih hn fun c hc => hr c (List.mem_cons_of_mem b hc)
    obtain ⟨fs', h'⟩ := h.free hlow hb (by simp [hnot])
    have htaken : (fun c => (!decide (c ∈ free)) && !decide (c = b)) =
        fun c => !decide (c ∈ b :: free) := by
      funext c
      simp [Bool.and_comm]
    exact ⟨fs', htaken ▸ h'⟩

end Reallocation

end SimpleFS
