import SimpleFS.Foundation.Exclusive
import SimpleFS.Image.Footprint
import SimpleFS.Image.Slots

/-! Which inode owns which block, and what an inode keeps when others are worked on. -/
namespace SimpleFS
open Bitmap

namespace Disk

/-- Inode `n` is in use. -/
def Live (d : Disk) (n : ℕ) : Prop := InodeNo n ∧ (d.inode n).nlink ≠ 0

instance (d : Disk) (n : ℕ) : Decidable (d.Live n) := inferInstanceAs (Decidable (_ ∧ _))

/-- The blocks that inode `n` holds: none when it is not in use. -/
def held (d : Disk) (n : ℕ) : List ℕ := if d.Live n then (d.inode n).refs d else []

theorem Live.held {d : Disk} {n : ℕ} (h : d.Live n) : d.held n = (d.inode n).refs d := if_pos h

theorem held_of_not_live {d : Disk} {n : ℕ} (h : ¬ d.Live n) : d.held n = [] := if_neg h

end Disk

/-- The blocks that the inodes hold are used data blocks, nobody's record, and held once. -/
structure OwnedBy (held : ℕ → List ℕ) (d : Disk) : Prop where
  low : ∀ b < 31, d.bit b = true
  range : ∀ n, ∀ b ∈ held n, 31 ≤ b ∧ b < 20480 ∧ d.bit b = true ∧ ¬ IsRecordBlock b
  exclusive : Exclusive held

/-- The blocks of the inodes in use are owned exclusively. -/
abbrev Owned (d : Disk) : Prop := OwnedBy d.held d

/-- The record blocks of all inode numbers are marked used. -/
def Reserved (d : Disk) : Prop := ∀ b, IsRecordBlock b → d.bit b = true

/-- Inode `n` and its blocks are the same in both images. -/
structure Untouched (d d' : Disk) (n : ℕ) : Prop where
  inode : d'.inode n = d.inode n
  block : ∀ b ∈ (d.inode n).refs d, d'.block b = d.block b

namespace Untouched

variable {d d' : Disk} {n : ℕ}

theorem ptr (h : Untouched d d' n) (k : ℕ) : (d'.inode n).ptr d' k = (d.inode n).ptr d k := by
  rw [h.inode]
  exact Inode.ptr_congr (fun hi => h.block _ (Inode.indirectBlock_mem_refs hi)) k

theorem refs (h : Untouched d d' n) : (d'.inode n).refs d' = (d.inode n).refs d := by
  rw [h.inode]
  exact Inode.refs_congr fun hi => h.block _ (Inode.indirectBlock_mem_refs hi)

theorem slots (h : Untouched d d' n) : (d'.inode n).slots d' = (d.inode n).slots d := by
  rw [h.inode]
  exact Inode.slots_congr h.block

theorem table (h : Untouched d d' n) : (d'.inode n).table d' = (d.inode n).table d := by
  rw [Inode.table, h.slots, Inode.table]

theorem entries (h : Untouched d d' n) : (d'.inode n).entries d' = (d.inode n).entries d := by
  rw [Inode.entries, h.table, Inode.entries]

theorem live (h : Untouched d d' n) : d'.Live n ↔ d.Live n := by
  rw [Disk.Live, Disk.Live, h.inode]

theorem mapped (h : Untouched d d' n) (hm : (d.inode n).Mapped d) : (d'.inode n).Mapped d' := by
  intro k hk
  rw [h.ptr]
  rw [h.inode] at hk
  exact hm k hk

theorem trans {d'' : Disk} (h : Untouched d d' n) (h' : Untouched d' d'' n) :
    Untouched d d'' n where
  inode := h'.inode.trans h.inode
  block b hb := by
    have hb' : b ∈ (d'.inode n).refs d' := by
      rw [h.refs]
      exact hb
    rw [h'.block b hb', h.block b hb]

end Untouched

theorem Inode.OnDisk.of_owned {held : ℕ → List ℕ} {d : Disk} (ho : OwnedBy held d) {i : Inode}
    {n : ℕ} (h : i.refs d = held n) : i.OnDisk d := by
  intro b hb
  exact (ho.range n b (h ▸ hb)).2.1

namespace Footprint

variable {fs fs' : Fs} {recs own new freed : List ℕ} {held : ℕ → List ℕ}

/-- An inode whose record and blocks are outside the footprint is untouched. -/
theorem untouched (hf : Footprint fs fs' recs own new freed) (ho : OwnedBy held fs.disk) {m : ℕ}
    (hm : InodeNo m) (hheld : held m = (fs.disk.inode m).refs fs.disk) (hrecs : m ∉ recs)
    (hown : ∀ b ∈ own, b ∉ held m) : Untouched fs.disk fs'.disk m where
  inode := hf.inode m hm hrecs
  block b hb := by
    rw [← hheld] at hb
    obtain ⟨hlow, -, hbit, hr⟩ := ho.range m b hb
    refine hf.block b (by omega) hr (fun hmem => hown b hmem hb) fun hmem => ?_
    have := (hf.fresh b hmem).2.2.1
    simp [hbit] at this

theorem live_iff (hf : Footprint fs fs' recs own new freed) {m : ℕ} (hrecs : m ∉ recs) :
    fs'.disk.Live m ↔ fs.disk.Live m := by
  simp only [Disk.Live]
  refine and_congr_right fun hm => ?_
  rw [hf.inode m hm hrecs]

theorem untouched_of_live (hf : Footprint fs fs' recs own new freed) (ho : Owned fs.disk) {m : ℕ}
    (hm : fs.disk.Live m) (hrecs : m ∉ recs) (hown : ∀ b ∈ own, b ∉ fs.disk.held m) :
    Untouched fs.disk fs'.disk m :=
  hf.untouched ho hm.1 hm.held hrecs hown

theorem held_eq (hf : Footprint fs fs' recs own new freed) (ho : Owned fs.disk) {m : ℕ}
    (hrecs : m ∉ recs) (hown : ∀ b ∈ own, b ∉ fs.disk.held m) :
    fs'.disk.held m = fs.disk.held m := by
  by_cases hm : fs.disk.Live m
  · have hu := hf.untouched_of_live ho hm hrecs hown
    rw [hm.held, Disk.Live.held (hu.live.mpr hm), hu.refs]
  · rw [Disk.held_of_not_live hm, Disk.held_of_not_live (mt (hf.live_iff hrecs).mp hm)]

/-- Ownership after a step: the inodes whose records were written share out their old blocks and
the new ones. -/
theorem owned {held' : ℕ → List ℕ} (hf : Footprint fs fs' recs own new freed)
    (ho : OwnedBy held fs.disk) (hsame : ∀ m, m ∉ recs → held' m = held m)
    (hfrom : ∀ r ∈ recs, ∀ b ∈ held' r, (∃ s ∈ recs, b ∈ held s) ∧ b ∉ freed ∨ b ∈ new)
    (hnodup : ∀ r ∈ recs, (held' r).Nodup)
    (hapart : ∀ r ∈ recs, ∀ s ∈ recs, r ≠ s → ∀ b ∈ held' r, b ∉ held' s)
    (hfreed : ∀ b ∈ freed, ∃ s ∈ recs, b ∈ held s) : OwnedBy held' fs'.disk where
  low b hb := by
    rw [hf.bit b (by omega), ho.low b hb]
    have hb' : b ∉ freed := by
      intro hmem
      obtain ⟨s, -, hs⟩ := hfreed b hmem
      have := (ho.range s b hs).1
      omega
    simp [hb']
  range n b hb := by
    have hkeep : (∃ s, b ∈ held s) → b ∉ freed →
        31 ≤ b ∧ b < 20480 ∧ fs'.disk.bit b = true ∧ ¬ IsRecordBlock b := by
      rintro ⟨s, hs⟩ hfree
      obtain ⟨hlow, hlt, hbit, hr⟩ := ho.range s b hs
      exact ⟨hlow, hlt, by rw [hf.bit b hlt, hbit]; simp [hfree], hr⟩
    by_cases hn : n ∈ recs
    · rcases hfrom n hn b hb with ⟨⟨s, -, hs⟩, hfree⟩ | hnew
      · exact hkeep ⟨s, hs⟩ hfree
      · obtain ⟨hlow, hlt, -, hr⟩ := hf.fresh b hnew
        exact ⟨hlow, hlt, by rw [hf.bit b hlt]; simp [hnew], hr⟩
    · rw [hsame n hn] at hb
      refine hkeep ⟨n, hb⟩ fun hmem => ?_
      obtain ⟨s, hs, hbs⟩ := hfreed b hmem
      exact hn (ho.exclusive.owner_unique hbs hb ▸ hs)
  exclusive := by
    refine ho.exclusive.redistribute (· ∈ recs) hsame (fun r hr b hb => ?_) hnodup
      fun r s hr hs => hapart r hr s hs
    rcases hfrom r hr b hb with ⟨⟨s, hs, hbs⟩, -⟩ | hnew
    · exact Or.inl ⟨s, hs, hbs⟩
    · refine Or.inr fun j hj => ?_
      have h1 := (hf.fresh b hnew).2.2.1
      rw [(ho.range j b hj).2.2.1] at h1
      exact Bool.noConfusion h1

end Footprint

namespace Disk

/-- The number of free blocks below block `c`. -/
def freeBelow (d : Disk) (c : ℕ) : ℕ := ((Finset.range c).filter fun b => d.bit b = false).card

/-- The next `k` allocations give no record block. -/
def Roomy (d : Disk) (k : ℕ) : Prop :=
  ∀ c, IsRecordBlock c → d.bit c = false → k ≤ d.freeBelow c

end Disk

theorem IsRecordBlock.lt {b : ℕ} (h : IsRecordBlock b) : b < 20480 := by
  obtain ⟨n, hn, rfl⟩ := h
  exact hn.recordBlock_lt

theorem Reserved.roomy {d : Disk} (h : Reserved d) (k : ℕ) : d.Roomy k := by
  intro c hc hfree
  simp [h c hc] at hfree

namespace Disk.Roomy

variable {d d' : Disk} {k : ℕ}

theorem mono {k' : ℕ} (h : d.Roomy k) (hk : k' ≤ k) : d.Roomy k' :=
  fun c hc hfree => hk.trans (h c hc hfree)

theorem congr (h : d.Roomy k) (hbit : ∀ b < 20480, d'.bit b = d.bit b) : d'.Roomy k := by
  intro c hc hfree
  rw [hbit c hc.lt] at hfree
  refine (h c hc hfree).trans (le_of_eq ?_)
  refine congrArg Finset.card (Finset.filter_congr fun b hb => ?_)
  rw [hbit b ((Finset.mem_range.mp hb).trans hc.lt)]

theorem writeBlock (h : d.Roomy k) {b : ℕ} (buf : Block) (hb : 6 ≤ b ∨ b = 0) :
    (d.writeBlock b buf).Roomy k :=
  h.congr fun _ hc => bit_writeBlock_of_le _ _ hb hc

theorem not_isRecordBlock (h : d.Roomy (k + 1)) {b : ℕ} (hb : LeastFree d b) :
    ¬ IsRecordBlock b := by
  intro hr
  have hnone : d.freeBelow b = 0 := by
    rw [freeBelow, Finset.card_eq_zero, Finset.filter_eq_empty_iff]
    intro c hc
    simp [hb.least c (Finset.mem_range.mp hc)]
  have := h b hr hb.free
  omega

theorem alloc (h : d.Roomy (k + 1)) {b : ℕ} {sb' : SuperBlock} (hb : LeastFree d b)
    (hu : BitUpdate d d' sb' b true) : d'.Roomy k := by
  intro c hc hfree
  rw [hu.bit c hc.lt] at hfree
  split_ifs at hfree with hcb
  have hlt : b < c := by
    rcases Nat.lt_trichotomy c b with hlt | heq | hgt
    · simp [hb.least c hlt] at hfree
    · exact absurd heq hcb
    · exact hgt
  have hset : (Finset.range c).filter (fun x => d'.bit x = false) =
      ((Finset.range c).filter fun x => d.bit x = false).erase b := by
    ext x
    simp only [Finset.mem_filter, Finset.mem_range, Finset.mem_erase]
    constructor
    · rintro ⟨hx, hbit⟩
      rw [hu.bit x (hx.trans hc.lt)] at hbit
      split_ifs at hbit with heq
      exact ⟨heq, hx, hbit⟩
    · rintro ⟨hne, hx, hbit⟩
      exact ⟨hx, by rw [hu.bit x (hx.trans hc.lt), if_neg hne, hbit]⟩
  have hmem : b ∈ (Finset.range c).filter fun x => d.bit x = false := by
    simp [hlt, hb.free]
  have hcard := Finset.card_erase_of_mem hmem
  have hold := h c hc hfree
  rw [freeBelow] at hold
  rw [freeBelow, hset, hcard]
  omega

end Disk.Roomy

theorem Footprint.roomy {fs fs' : Fs} {recs own : List ℕ}
    (hf : Footprint fs fs' recs own [] []) {k : ℕ} (h : fs.disk.Roomy k) : fs'.disk.Roomy k :=
  h.congr fun b hb => by simp [hf.bit b hb]

/-- What was allocated is no longer to come. -/
theorem Footprint.roomy_of_alloc {fs fs' : Fs} {recs own new : List ℕ}
    (hf : Footprint fs fs' recs own new []) {k : ℕ} (h : fs.disk.Roomy (k + new.length)) :
    fs'.disk.Roomy k := by
  intro c hc hfree
  have hbit : ∀ b < 20480, fs'.disk.bit b = false ↔ b ∉ new ∧ fs.disk.bit b = false := by
    intro b hb
    rw [hf.bit b hb]
    simp
  have hsub : (Finset.range c).filter (fun b => fs.disk.bit b = false) ⊆
      (Finset.range c).filter (fun b => fs'.disk.bit b = false) ∪ new.toFinset := by
    intro b hb
    obtain ⟨hlt, hold⟩ := Finset.mem_filter.mp hb
    rw [Finset.mem_union, List.mem_toFinset, Finset.mem_filter]
    by_cases hn : b ∈ new
    · exact Or.inr hn
    · exact Or.inl ⟨hlt, (hbit b ((Finset.mem_range.mp hlt).trans hc.lt)).mpr ⟨hn, hold⟩⟩
  have hold := h c hc ((hbit c hc.lt).mp hfree).2
  have hcard := (Finset.card_le_card hsub).trans (Finset.card_union_le _ _)
  have hnew := List.toFinset_card_le new
  simp only [Disk.freeBelow] at hold ⊢
  omega

/-- The low blocks are used: the superblock, the bitmap and the inode table. -/
def LowUsed (d : Disk) : Prop := ∀ b < 31, d.bit b = true

theorem LeastFree.low {d : Disk} {b : ℕ} (hb : LeastFree d b) (hlow : LowUsed d) : 31 ≤ b := by
  by_contra hlt
  simpa [hb.free] using hlow b (by omega)

theorem Footprint.lowUsed {fs fs' : Fs} {recs own new : List ℕ}
    (hf : Footprint fs fs' recs own new []) (h : LowUsed fs.disk) : LowUsed fs'.disk := by
  intro b hb
  rw [hf.bit b (by omega), h b hb]
  simp

/-- What a successful allocation does, where no record block can be handed out. -/
theorem Footprint.of_allocateBlock {fs : Fs} (hd : fs.disk.Sized) (hl : Layout fs.sb)
    (hlow : LowUsed fs.disk) {k b : ℕ} (hroom : fs.disk.Roomy (k + 1)) {d' : Disk}
    {sb' : SuperBlock} (h : allocateBlock fs.disk fs.sb = some (some b, d', sb')) :
    LeastFree fs.disk b ∧ Footprint fs ⟨d', sb'⟩ [] [] [b] [] ∧ d'.Roomy k := by
  rcases allocateBlock_cases hd h with ⟨hr, -⟩ | ⟨c, hr, hcount, hleast, hsb, hu⟩
  · simp at hr
  · obtain rfl : b = c := by simpa using hr
    exact ⟨hleast, .alloc hl hcount hleast hsb hu (hleast.low hlow) (hroom.not_isRecordBlock hleast),
      hroom.alloc hleast hu⟩

theorem allocateBlock_eq_none {fs : Fs} (hd : fs.disk.Sized) {d' : Disk} {sb' : SuperBlock}
    (h : allocateBlock fs.disk fs.sb = some (none, d', sb')) : d' = fs.disk ∧ sb' = fs.sb := by
  rcases allocateBlock_cases hd h with ⟨-, hd', hsb⟩ | ⟨c, hr, -⟩
  · exact ⟨hd', hsb⟩
  · simp at hr

end SimpleFS
