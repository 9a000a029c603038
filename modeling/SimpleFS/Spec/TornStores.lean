import SimpleFS.Requests.Trails
import SimpleFS.Spec.StoreChanges

/-! What a crash can make of the store, and the disks on the way that still show it. -/
namespace SimpleFS
open NodeStore Overlay Function Bitmap

namespace FileStore

end FileStore

namespace Disk

/-- The disk can be mounted, and its store is one of `T`. -/
structure Shows (T : FileStore → Prop) (c : Disk) : Prop where
  sized : c.Sized
  layout : Layout (SuperBlock.fromBytes (c.block 0))
  store : T c.node

/-- `c` is `d` up to the superblock and the bitmap. -/
structure Above (d c : Disk) : Prop where
  sized : c.Sized
  layout : Layout (SuperBlock.fromBytes (c.block 0))
  block : ∀ b, 6 ≤ b → c.block b = d.block b

theorem Trail.mono {P Q : Disk → Prop} {d d' : Disk} (h : d.Trail P d') (hPQ : ∀ c, P c → Q c) :
    d.Trail Q d' := by
  obtain ⟨ws, hws, h⟩ := h
  exact ⟨ws, hws, h.mono hPQ⟩

theorem Trail.shows {T : FileStore → Prop} {d d₁ : Disk} (h : d.Trail (Shows T) d₁) {b : ℕ}
    (hb : 6 ≤ b) (hlt : b < 20480) (buf : Block) (hT : T (d₁.writeBlock b buf).node) :
    d.Trail (Shows T) (d₁.writeBlock b buf) := by
  refine h.write ⟨h.last.sized.writeBlock hlt buf, ?_, hT⟩
  rw [block_writeBlock_of_ne _ buf (by omega)]
  exact h.last.layout

theorem Trail.shows_putInode {T : FileStore → Prop} {d d₁ : Disk} (h : d.Trail (Shows T) d₁)
    {i : Inode} (hi : InodeNo i.inodeNo.toNat) (hT : T (d₁.putInode i).node) :
    d.Trail (Shows T) (d₁.putInode i) :=
  h.shows (six_le_recordBlock _) hi.recordBlock_lt _ hT

/-- A node depends on its record and on its blocks only. -/
theorem node_congr {d c : Disk} {n : ℕ} (hinode : InodeNo n → c.inode n = d.inode n)
    (hblock : d.Live n → ∀ b ∈ (d.inode n).refs d, c.block b = d.block b)
    (hm : d.Live n → (d.inode n).Mapped d) : c.node n = d.node n := by
  by_cases hn : d.Live n
  · exact Untouched.node ⟨hinode hn.1, hblock hn⟩ hm
  · have hn' : ¬ c.Live n := fun hl => hn ⟨hl.1, by rw [← hinode hl.1]; exact hl.2⟩
    rw [node_eq_none_iff.mpr hn, node_eq_none_iff.mpr hn']

/-- Where two disks agree on all nodes but some, they do so after their records are stored. -/
theorem node_putInode_of_ne {d c : Disk} (ho : Owned d) {i : Inode}
    (hi : InodeNo i.inodeNo.toNat) {n : ℕ} (hne : n ≠ i.inodeNo.toNat)
    (hinode : InodeNo n → c.inode n = d.inode n)
    (hblock : d.Live n → ∀ b ∈ (d.inode n).refs d, c.block b = d.block b)
    (hm : d.Live n → (d.inode n).Mapped d) : (c.putInode i).node n = d.node n := by
  refine node_congr (fun hn => ?_) (fun hn b hb => ?_) hm
  · rw [inode_putInode, if_neg hne, hinode hn]
  · rw [block_putInode, hblock hn b hb]
    intro heq
    exact (ho.range n b (hn.held ▸ hb)).2.2.2 ⟨_, hi, heq.symm⟩

namespace Above

variable {d c c' : Disk}

theorem refl (hd : d.Sized) (hl : Layout (SuperBlock.fromBytes (d.block 0))) : d.Above d :=
  ⟨hd, hl, fun _ _ => rfl⟩

theorem trans (h : d.Above c) (h' : c.Above c') : d.Above c' :=
  ⟨h'.sized, h'.layout, fun b hb => (h'.block b hb).trans (h.block b hb)⟩

theorem inode (h : d.Above c) (n : ℕ) : c.inode n = d.inode n :=
  inode_eq_of_block_eq (h.block _ (six_le_recordBlock n))

theorem block_of_refs (h : d.Above c) (ho : Owned d) {n : ℕ} (hn : d.Live n) :
    ∀ b ∈ (d.inode n).refs d, c.block b = d.block b := by
  intro b hb
  have hlow := (ho.range n b (hn.held ▸ hb)).1
  exact h.block b (by omega)

theorem node (h : d.Above c) (ho : Owned d) (hm : d.AllMapped) : c.node = d.node :=
  funext fun n => node_congr (fun _ => h.inode n) (h.block_of_refs ho) (hm n)

theorem putInode (h : d.Above c) {i : Inode} (hi : recordBlock i.inodeNo.toNat < 20480) :
    (d.putInode i).Above (c.putInode i) := by
  have hlow := six_le_recordBlock i.inodeNo.toNat
  refine ⟨h.sized.putInode hi, ?_, fun b hb => ?_⟩
  · rw [block_putInode _ _ (by omega)]
    exact h.layout
  · by_cases hrecord : b = recordBlock i.inodeNo.toNat
    · subst hrecord
      rw [Disk.putInode, Disk.putInode, block_writeBlock_self, block_writeBlock_self, h.block _ hb]
    · rw [block_putInode _ _ hrecord, block_putInode _ _ hrecord, h.block b hb]

theorem shows (h : d.Above c) (ho : Owned d) (hm : d.AllMapped) {T : FileStore → Prop}
    (hT : T d.node) : c.Shows T :=
  ⟨h.sized, h.layout, by rwa [h.node ho hm]⟩

end Above

end Disk

section Bits

variable {d d₁ d' : Disk} {sb sb' : SuperBlock} {b : ℕ}

theorem updateBit_above (h : d.Above d₁) (hl : Layout sb) (hb : b < 20480)
    {f : UInt8 → UInt8 → UInt8} {count : UInt32}
    (hu : updateBit d₁ sb b f count = some (d', sb')) :
    d₁.Trail d.Above d' ∧ Layout sb' := by
  have hblk : 0 < 1 + b / 8 / blockSize ∧ 1 + b / 8 / blockSize < 6 := by
    simp only [blockSize]
    omega
  simp only [updateBit, locate, Option.bind_eq_bind] at hu
  obtain ⟨buf, -, hu⟩ := Option.bind_eq_some_iff.mp hu
  simp only [Option.some.injEq, Prod.mk.injEq] at hu
  obtain ⟨rfl, rfl⟩ := hu
  generalize (buf.modifyByte (b / 8 % blockSize) fun x => f x (UInt8.bitMask (b % 8))) = buf'
  generalize 1 + b / 8 / blockSize = k at hblk ⊢
  have hbit : d.Above (d₁.writeBlock k buf') := by
    refine ⟨h.sized.writeBlock (by omega) _, ?_, fun c hc => ?_⟩
    · rw [Disk.block_writeBlock_of_ne _ _ (by omega)]
      exact h.layout
    · rw [Disk.block_writeBlock_of_ne _ _ (by omega), h.block c hc]
  have hsuper : d.Above (writeSuperblock (d₁.writeBlock k buf') { sb with freeBlocks := count }) := by
    refine ⟨hbit.sized.writeBlock (Nat.zero_lt_succ _) _, ?_, fun c hc => ?_⟩
    · rw [writeSuperblock, Disk.block_writeBlock_self, SuperBlock.fromBytes_toBlock]
      exact hl.setFreeBlocks _
    · rw [writeSuperblock, Disk.block_writeBlock_of_ne _ _ (by omega), hbit.block c hc]
  exact ⟨((Disk.Trail.refl h).write hbit).write hsuper, hl.setFreeBlocks _⟩

theorem allocateBlock_above (h : d.Above d₁) (hl : Layout sb) {r : Option ℕ}
    (ha : allocateBlock d₁ sb = some (r, d', sb')) : d₁.Trail d.Above d' := by
  unfold allocateBlock at ha
  split_ifs at ha
  · simp only [Option.some.injEq, Prod.mk.injEq] at ha
    exact ha.2.1 ▸ .refl h
  obtain ⟨sbLocal, -, ha⟩ := Option.bind_eq_some_iff.mp ha
  obtain ⟨found, -, ha⟩ := Option.bind_eq_some_iff.mp ha
  cases found with
  | none =>
    simp only [Option.some.injEq, Prod.mk.injEq] at ha
    exact ha.2.1 ▸ .refl h
  | some b =>
    dsimp only at ha
    split_ifs at ha with hmax
    · simp only [Option.some.injEq, Prod.mk.injEq] at ha
      exact ha.2.1 ▸ .refl h
    · obtain ⟨⟨d₂, sb₂⟩, hmark, ha⟩ := Option.bind_eq_some_iff.mp ha
      simp only [Option.some.injEq, Prod.mk.injEq] at ha
      obtain ⟨-, rfl, -⟩ := ha
      exact (updateBit_above h hl (Nat.lt_of_not_le hmax) hmark).1

end Bits

end SimpleFS
