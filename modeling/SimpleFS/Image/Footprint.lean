import Mathlib.Data.Finset.Card
import SimpleFS.Fs
import SimpleFS.Image.Records

/-! What a piece of code may have changed: the inode records it wrote, the blocks it wrote, and
the blocks it allocated and freed. Footprints compose, so that a request gets its footprint
from those of its steps. -/
namespace SimpleFS
open Bitmap

/-- The number of blocks marked used. -/
def Disk.usedCount (d : Disk) : ℕ := ((Finset.range 20480).filter fun b => d.bit b = true).card

/-- The free count plus the blocks marked used. Every request keeps this sum. -/
def Fs.balance (fs : Fs) : UInt32 := fs.sb.freeBlocks + .ofNat fs.disk.usedCount

/-- The superblock in memory is the one in block 0. -/
def Fs.Synced (fs : Fs) : Prop := SuperBlock.fromBytes (fs.disk.block 0) = fs.sb

theorem usedCount_congr {d d' : Disk} (h : ∀ b < 20480, d'.bit b = d.bit b) :
    d'.usedCount = d.usedCount := by
  rw [Disk.usedCount, Disk.usedCount, Finset.filter_congr fun b hb => by
    rw [h b (Finset.mem_range.mp hb)]]

theorem Bitmap.BitUpdate.usedCount_alloc {d d' : Disk} {sb' : SuperBlock} {b : ℕ}
    (h : BitUpdate d d' sb' b true) (hb : b < 20480) (hfree : d.bit b = false) :
    d'.usedCount = d.usedCount + 1 := by
  have hset : (Finset.range 20480).filter (fun c => d'.bit c = true) =
      insert b ((Finset.range 20480).filter fun c => d.bit c = true) := by
    ext c
    simp only [Finset.mem_filter, Finset.mem_range, Finset.mem_insert]
    constructor
    · rintro ⟨hc, hbit⟩
      rw [h.bit c hc] at hbit
      split_ifs at hbit with heq
      · exact Or.inl heq
      · exact Or.inr ⟨hc, hbit⟩
    · rintro (rfl | ⟨hc, hbit⟩)
      · exact ⟨hb, by rw [h.bit c hb, if_pos rfl]⟩
      · refine ⟨hc, ?_⟩
        rw [h.bit c hc, hbit, ite_self]
  rw [Disk.usedCount, hset, Finset.card_insert_of_notMem (by simp [hfree]), Disk.usedCount]

theorem Bitmap.BitUpdate.usedCount_free {d d' : Disk} {sb' : SuperBlock} {b : ℕ}
    (h : BitUpdate d d' sb' b false) (hb : b < 20480) (hused : d.bit b = true) :
    d'.usedCount + 1 = d.usedCount := by
  have hset : (Finset.range 20480).filter (fun c => d'.bit c = true) =
      ((Finset.range 20480).filter fun c => d.bit c = true).erase b := by
    ext c
    simp only [Finset.mem_filter, Finset.mem_range, Finset.mem_erase]
    constructor
    · rintro ⟨hc, hbit⟩
      rw [h.bit c hc] at hbit
      split_ifs at hbit with heq
      exact ⟨heq, hc, hbit⟩
    · rintro ⟨hne, hc, hbit⟩
      exact ⟨hc, by rw [h.bit c hc, if_neg hne, hbit]⟩
  have hmem : b ∈ (Finset.range 20480).filter fun c => d.bit c = true := by simp [hb, hused]
  rw [Disk.usedCount, hset, Disk.usedCount, Finset.card_erase_add_one hmem]

/-- The change from `fs` to `fs'`: of the records only those in `recs`, of the data blocks only
those in `own` and `new` were written; `new` was allocated and `freed` was freed. -/
structure Footprint (fs fs' : Fs) (recs own new freed : List ℕ) : Prop where
  sized : fs'.disk.Sized
  layout : Layout fs'.sb
  inode : ∀ m, InodeNo m → m ∉ recs → fs'.disk.inode m = fs.disk.inode m
  block : ∀ b, 6 ≤ b → ¬ IsRecordBlock b → b ∉ own → b ∉ new → fs'.disk.block b = fs.disk.block b
  bit : ∀ c < 20480, fs'.disk.bit c = (decide (c ∈ new) || fs.disk.bit c && !decide (c ∈ freed))
  fresh : ∀ b ∈ new, 31 ≤ b ∧ b < 20480 ∧ fs.disk.bit b = false ∧ ¬ IsRecordBlock b
  nodup : new.Nodup
  balance : fs'.balance = fs.balance
  spent : freed = [] → fs'.sb.freeBlocks.toNat + new.length = fs.sb.freeBlocks.toNat
  synced : 0 ∉ own → fs.Synced → fs'.Synced

namespace Footprint

variable {fs fs' fs'' : Fs} {recs own new freed : List ℕ}

theorem refl (hd : fs.disk.Sized) (hl : Layout fs.sb) : Footprint fs fs [] [] [] [] where
  sized := hd
  layout := hl
  inode _ _ _ := rfl
  block _ _ _ _ _ := rfl
  bit c _ := by simp
  fresh b hb := by simp at hb
  nodup := List.nodup_nil
  balance := rfl
  spent _ := rfl
  synced _ h := h

theorem mono {recs' own' : List ℕ} (h : Footprint fs fs' recs own new freed)
    (hrecs : recs ⊆ recs') (hown : own ⊆ own') : Footprint fs fs' recs' own' new freed where
  sized := h.sized
  layout := h.layout
  inode m hm hn := h.inode m hm fun hmem => hn (hrecs hmem)
  block b h6 hr ho hn := h.block b h6 hr (fun hmem => ho (hown hmem)) hn
  bit := h.bit
  fresh := h.fresh
  nodup := h.nodup
  balance := h.balance
  spent := h.spent
  synced h0 := h.synced fun hmem => h0 (hown hmem)

/-- One footprint after another. The second part may also write what the first allocated. -/
theorem trans {new' freed' : List ℕ} {own' : List ℕ} (h : Footprint fs fs' recs own new freed)
    (h' : Footprint fs' fs'' recs own' new' freed') (hown : ∀ b ∈ own', b ∈ own ∨ b ∈ new)
    (hkeep : ∀ b ∈ new, b ∉ freed') (hfreed : ∀ b ∈ new', b ∉ freed) :
    Footprint fs fs'' recs own (new ++ new') (freed ++ freed') where
  sized := h'.sized
  layout := h'.layout
  inode m hm hn := (h'.inode m hm hn).trans (h.inode m hm hn)
  block b h6 hr ho hn := by
    simp only [List.mem_append, not_or] at hn
    rw [h'.block b h6 hr (fun hmem => (hown b hmem).elim ho hn.1) hn.2, h.block b h6 hr ho hn.1]
  bit c hc := by
    rw [h'.bit c hc, h.bit c hc]
    simp only [List.mem_append, Bool.decide_or]
    by_cases hn : c ∈ new <;> by_cases hf : c ∈ freed' <;> by_cases hn' : c ∈ new' <;>
      simp_all
  fresh b hb := by
    rcases List.mem_append.mp hb with hb | hb
    · exact h.fresh b hb
    · obtain ⟨hlow, hlt, hbit, hr⟩ := h'.fresh b hb
      rw [h.bit b hlt] at hbit
      simp only [Bool.or_eq_false_iff, Bool.and_eq_false_iff, decide_eq_false_iff_not,
        Bool.not_eq_false', decide_eq_true_eq] at hbit
      exact ⟨hlow, hlt, hbit.2.resolve_right (hfreed b hb), hr⟩
  nodup := by
    refine List.nodup_append.mpr ⟨h.nodup, h'.nodup, fun b hb c hc heq => ?_⟩
    subst heq
    obtain ⟨-, hlt, hbit, -⟩ := h'.fresh b hc
    simp [h.bit b hlt, hb] at hbit
  balance := h'.balance.trans h.balance
  spent hnil := by
    obtain ⟨h₁, h₂⟩ := List.append_eq_nil_iff.mp hnil
    rw [List.length_append, ← h.spent h₁, ← h'.spent h₂]
    omega
  synced h0 hs := by
    refine h'.synced (fun hmem => ?_) (h.synced h0 hs)
    rcases hown 0 hmem with ho | hn
    · exact h0 ho
    · have := (h.fresh 0 hn).1
      omega

/-- Two parts that free nothing. -/
theorem trans_alloc {new' own' : List ℕ} (h : Footprint fs fs' recs own new [])
    (h' : Footprint fs' fs'' recs own' new' []) (hown : ∀ b ∈ own', b ∈ own ∨ b ∈ new) :
    Footprint fs fs'' recs own (new ++ new') [] :=
  h.trans h' hown (by simp) (by simp)

/-- Two parts that allocate nothing. -/
theorem trans_free {freed' own' : List ℕ} (h : Footprint fs fs' recs own [] freed)
    (h' : Footprint fs' fs'' recs own' [] freed') (hown : own' ⊆ own) :
    Footprint fs fs'' recs own [] (freed ++ freed') :=
  h.trans h' (fun _ hb => Or.inl (hown hb)) (by simp) (by simp)

theorem putInode (hd : fs.disk.Sized) (hl : Layout fs.sb) {i : Inode} (hi : InodeNo i.inodeNo.toNat) :
    Footprint fs ⟨fs.disk.putInode i, fs.sb⟩ [i.inodeNo.toNat] [] [] [] where
  sized := hd.putInode hi.recordBlock_lt
  layout := hl
  inode m _ hn := by
    rw [Disk.inode_putInode, if_neg (by simpa using hn)]
  block b _ hr _ _ := Disk.block_putInode _ _ fun heq => hr ⟨_, hi, heq.symm⟩
  bit c hc := by simp [Disk.bit_putInode _ _ hc]
  fresh b hb := by simp at hb
  nodup := List.nodup_nil
  balance := by
    rw [Fs.balance, Fs.balance, usedCount_congr fun b hb => Disk.bit_putInode _ _ hb]
  spent _ := rfl
  synced _ hs := by
    rw [Fs.Synced, Disk.block_putInode]
    · exact hs
    · have := six_le_recordBlock i.inodeNo.toNat
      omega

theorem writeBlock (hd : fs.disk.Sized) (hl : Layout fs.sb) {b : ℕ} (buf : Block)
    (hb : 6 ≤ b ∨ b = 0) (hlt : b < 20480) (hr : ¬ IsRecordBlock b) :
    Footprint fs ⟨fs.disk.writeBlock b buf, fs.sb⟩ [] [b] [] [] where
  sized := hd.writeBlock hlt _
  layout := hl
  inode m hm _ := Disk.inode_writeBlock_of_ne _ _ fun heq => hr ⟨m, hm, heq⟩
  block c _ _ hc _ := Disk.block_writeBlock_of_ne _ _ (by simpa using hc)
  bit c hc := by simp [bit_writeBlock_of_le _ _ hb hc]
  fresh c hc := by simp at hc
  nodup := List.nodup_nil
  balance := by
    rw [Fs.balance, Fs.balance, usedCount_congr fun c hc => bit_writeBlock_of_le _ _ hb hc]
  spent _ := rfl
  synced h0 hs := by
    rw [Fs.Synced, Disk.block_writeBlock_of_ne _ _ (by simpa using h0)]
    exact hs

theorem alloc (hl : Layout fs.sb) {d' : Disk} {sb' : SuperBlock} {b : ℕ}
    (hcount : fs.sb.freeBlocks ≠ 0) (hb : LeastFree fs.disk b)
    (hsb : sb' = { fs.sb with freeBlocks := fs.sb.freeBlocks - 1 })
    (hu : BitUpdate fs.disk d' sb' b true) (hlow : 31 ≤ b) (hr : ¬ IsRecordBlock b) :
    Footprint fs ⟨d', sb'⟩ [] [] [b] [] where
  sized := hu.sized
  layout := by
    rw [hsb]
    exact hl.setFreeBlocks _
  inode m _ _ := hu.inode m
  block c hc _ _ _ := hu.block c hc
  bit c hc := by
    rw [hu.bit c hc]
    split_ifs with h <;> simp [h]
  fresh c hc := by
    rw [List.mem_singleton] at hc
    subst hc
    exact ⟨hlow, hb.lt, hb.free, hr⟩
  nodup := List.nodup_singleton b
  balance := by
    rw [Fs.balance, Fs.balance, hu.usedCount_alloc hb.lt hb.free, hsb, UInt32.ofNat_add]
    have hcancel : (1 : UInt32) + -1 = 0 := by decide
    simp only [UInt32.sub_eq_add_neg]
    rw [UInt32.add_assoc, UInt32.add_comm (-1), UInt32.add_assoc]
    simp [hcancel]
  spent _ := by
    have hpos : 1 ≤ fs.sb.freeBlocks.toNat := by
      by_contra h0
      exact hcount (UInt32.toNat_inj.mp (by rw [UInt32.toNat_zero]; omega))
    have hsub : (fs.sb.freeBlocks - 1).toNat = fs.sb.freeBlocks.toNat - 1 :=
      UInt32.toNat_sub_of_le _ _ (UInt32.le_iff_toNat_le.mpr hpos)
    rw [hsb, List.length_singleton]
    dsimp only
    omega
  synced _ _ := hu.super

theorem free (hl : Layout fs.sb) {d' : Disk} {sb' : SuperBlock} {b : ℕ}
    (hb : b < 20480) (hused : fs.disk.bit b = true)
    (hsb : sb' = { fs.sb with freeBlocks := fs.sb.freeBlocks + 1 })
    (hu : BitUpdate fs.disk d' sb' b false) : Footprint fs ⟨d', sb'⟩ [] [] [] [b] where
  sized := hu.sized
  layout := by
    rw [hsb]
    exact hl.setFreeBlocks _
  inode m _ _ := hu.inode m
  block c hc _ _ _ := hu.block c hc
  bit c hc := by
    rw [hu.bit c hc]
    split_ifs with h <;> simp [h]
  fresh c hc := by simp at hc
  nodup := List.nodup_nil
  balance := by
    rw [Fs.balance, Fs.balance, ← hu.usedCount_free hb hused, hsb, UInt32.ofNat_add,
      UInt32.add_comm (UInt32.ofNat _), ← UInt32.add_assoc]
    rfl
  spent h := absurd h (List.cons_ne_nil _ _)
  synced _ _ := hu.super

end Footprint

end SimpleFS
