import SimpleFS.Directory
import SimpleFS.Foundation.SlotTable
import SimpleFS.Image.Pointers

/-! The content of a directory as one list of slots, and the searches of the directory code as
searches in it. -/
namespace SimpleFS
open Scan

namespace DirEntry

/-- What is left in a slot whose entry was removed. -/
def cleared (e : DirEntry) : DirEntry := { e with nameLen := 0 }

/-- A slot of a block that has just been zeroed. -/
def blank : DirEntry := ⟨0, 0, 0, Vector.zeros maxNameLen⟩

@[simp] theorem isEmpty_cleared (e : DirEntry) : e.cleared.isEmpty = true := rfl

@[simp] theorem isEmpty_blank : blank.isEmpty = true := rfl

/-- The entry has the name `name`. -/
def named (name : String) (e : DirEntry) : Bool := e.nameStr == some name

theorem named_unique {e : DirEntry} {s t : String} (hs : e.named s = true) (ht : e.named t = true) :
    s = t := by
  rw [named, beq_iff_eq] at hs ht
  exact Option.some.inj (hs.symm.trans ht)

theorem fromBytes_zeros {n : ℕ} (off : ℕ) :
    fromBytes ((Vector.zeros n).slice off dirEntrySize) = blank := by
  have hname : ((Vector.zeros n).slice off dirEntrySize).slice 6 maxNameLen =
      Vector.zeros maxNameLen := by
    apply Vector.ext_byteAt
    intro i hi
    rw [Vector.byteAt_slice _ _ hi, Vector.byteAt_slice _ _ (by
      simp only [dirEntrySize, maxNameLen] at hi ⊢; omega)]
    simp
  simp only [fromBytes, blank, hname, Vector.readLE_slice _ (show 0 + 4 ≤ dirEntrySize by decide),
    Vector.byteAt_slice _ _ (show 4 < dirEntrySize by decide),
    Vector.byteAt_slice _ _ (show 5 < dirEntrySize by decide), Vector.readLE_zeros,
    Vector.byteAt_zeros]
  rfl

/-- Zeroing the length byte of a slot leaves the rest of the entry in it. -/
theorem fromBytes_clear {buf : Block} {off : ℕ} (h : off + dirEntrySize ≤ blockSize) :
    fromBytes ((buf.copyAt (off + 5) 1 fun _ => 0).slice off dirEntrySize) =
      (fromBytes (buf.slice off dirEntrySize)).cleared := by
  simp only [dirEntrySize, maxNameLen, blockSize] at h
  have hbyte : ∀ i < dirEntrySize, ((buf.copyAt (off + 5) 1 fun _ => 0).slice off
      dirEntrySize).byteAt i = if i = 5 then 0 else (buf.slice off dirEntrySize).byteAt i := by
    intro i hi
    rw [Vector.byteAt_slice _ _ hi, Vector.byteAt_slice _ _ hi, Vector.byteAt_copyAt]
    simp only [dirEntrySize, maxNameLen, blockSize] at hi ⊢
    split_ifs <;> first | rfl | omega
  have hinode : ((buf.copyAt (off + 5) 1 fun _ => 0).slice off dirEntrySize).readLE 0 4 =
      (buf.slice off dirEntrySize).readLE 0 4 := by
    apply Vector.leValue_congr
    intro i hi
    rw [hbyte _ (by simp only [dirEntrySize, maxNameLen]; omega), if_neg (by omega)]
  have hname : ((buf.copyAt (off + 5) 1 fun _ => 0).slice off dirEntrySize).slice 6 maxNameLen =
      (buf.slice off dirEntrySize).slice 6 maxNameLen := by
    apply Vector.ext_byteAt
    intro i hi
    rw [Vector.byteAt_slice _ _ hi, Vector.byteAt_slice _ _ hi, hbyte _ (by
      simp only [dirEntrySize, maxNameLen] at hi ⊢; omega), if_neg (by omega)]
  simp only [fromBytes, cleared, hinode, hname, hbyte 4 (by decide), hbyte 5 (by decide)]
  rfl

end DirEntry

theorem length_blockSlots (b : ℕ) (buf : Block) : (blockSlots b buf).length = 15 := by
  simp [blockSlots, entriesPerBlock, pageSize, blockSize, dirEntrySize, maxNameLen]

theorem mem_blockSlots {b : ℕ} {buf : Block} {s : Slot} :
    s ∈ blockSlots b buf ↔
      ∃ j < 15, s = (.fromBytes (buf.slice (j * 34) dirEntrySize), b, j * 34) := by
  simp only [blockSlots, List.mem_map, List.mem_range, entriesPerBlock, pageSize, blockSize,
    dirEntrySize, maxNameLen]
  constructor
  · rintro ⟨j, hj, rfl⟩
    exact ⟨j, hj, rfl⟩
  · rintro ⟨j, hj, rfl⟩
    exact ⟨j, hj, rfl⟩

/-- Changing one slot of a block. -/
theorem blockSlots_congr {b off : ℕ} {buf buf' : Block} {e : DirEntry}
    (hslot : DirEntry.fromBytes (buf'.slice off dirEntrySize) = e)
    (hrest : ∀ j < 15, j * 34 ≠ off →
      buf'.slice (j * 34) dirEntrySize = buf.slice (j * 34) dirEntrySize) :
    blockSlots b buf' = (blockSlots b buf).map fun s => if s.2 = (b, off) then (e, b, off) else s := by
  simp only [blockSlots, List.map_map]
  apply List.map_congr_left
  intro j hj
  have hj : j < 15 := List.mem_range.mp hj
  simp only [Function.comp, Prod.mk.injEq, true_and, dirEntrySize, maxNameLen] at hrest hslot ⊢
  by_cases hoff : j * 34 = off
  · rw [if_pos hoff, ← hslot, hoff]
  · rw [if_neg hoff, hrest j hj hoff]

private theorem map_replace_of_nodup_keys {α κ : Type*} [DecidableEq κ] (key : α → κ)
    {pre post : List α} {x : α} (h : ((pre ++ x :: post).map key).Nodup) (y : α) :
    (pre ++ x :: post).map (fun s => if key s = key x then y else s) = pre ++ y :: post := by
  rw [List.map_append, List.map_cons, List.nodup_append, List.nodup_cons] at h
  obtain ⟨-, ⟨hpost, -⟩, hpre⟩ := h
  have keep : ∀ l : List α, (∀ s ∈ l, key s ≠ key x) →
      l.map (fun s => if key s = key x then y else s) = l := by
    intro l hl
    calc _ = l.map id := List.map_congr_left fun s hs => if_neg (hl s hs)
      _ = l := List.map_id l
  rw [List.map_append, List.map_cons, if_pos rfl, keep pre fun s hs =>
    hpre _ (List.mem_map_of_mem hs) _ List.mem_cons_self, keep post fun s hs heq =>
    hpost (heq ▸ List.mem_map_of_mem hs)]

namespace Inode

/-- The slots of a directory in the order in which they are searched. -/
def slots (d : Disk) (i : Inode) : List Slot :=
  (i.blocks d).flatMap fun b => blockSlots b (d.block b)

/-- What the slots of a directory hold. -/
def table (d : Disk) (i : Inode) : List DirEntry := (i.slots d).map Prod.fst

/-- The entries of a directory, in the order in which they are listed. -/
def entries (d : Disk) (i : Inode) : List DirEntry := SlotTable.live DirEntry.isEmpty (i.table d)

theorem length_table (d : Disk) (i : Inode) : (i.table d).length = 15 * (i.blocks d).length := by
  simp [table, slots, List.length_flatMap, length_blockSlots, Nat.mul_comm]

theorem length_filter_slots (d : Disk) (i : Inode) :
    ((i.slots d).filter fun s => !s.1.isEmpty).length = (i.entries d).length := by
  rw [entries, SlotTable.live, table, List.filter_map, List.length_map]
  rfl

theorem mem_slots {d : Disk} {i : Inode} {e : DirEntry} {b off : ℕ} (h : (e, b, off) ∈ i.slots d) :
    b ∈ i.blocks d ∧ (∃ j < 15, off = j * 34) ∧
      e = .fromBytes ((d.block b).slice off dirEntrySize) := by
  obtain ⟨c, hc, hs⟩ := List.mem_flatMap.mp h
  obtain ⟨j, hj, hs⟩ := mem_blockSlots.mp hs
  simp only [Prod.mk.injEq] at hs
  obtain ⟨he, rfl, rfl⟩ := hs
  exact ⟨hc, ⟨j, hj, rfl⟩, he⟩

theorem slots_congr {d d' : Disk} {i : Inode} (h : ∀ b ∈ i.refs d, d'.block b = d.block b) :
    i.slots d' = i.slots d := by
  have hb : i.blocks d' = i.blocks d :=
    blocks_congr fun hi => h _ (indirectBlock_mem_refs hi)
  rw [slots, slots, hb]
  apply List.flatMap_congr
  intro b hmem
  rw [h b (mem_refs_of_mem_blocks hmem)]

/-- No place appears twice in the slots of a directory. -/
theorem nodup_places {d : Disk} {i : Inode} (h : (i.blocks d).Nodup) :
    ((i.slots d).map Prod.snd).Nodup := by
  rw [slots, List.map_flatMap]
  refine List.nodup_flatMap.mpr ⟨fun b _ => ?_, ?_⟩
  · simp only [blockSlots, List.map_map]
    refine List.Nodup.map ?_ List.nodup_range
    intro j k hjk
    simp only [Function.comp, Prod.mk.injEq, true_and, dirEntrySize, maxNameLen] at hjk
    omega
  · refine h.imp fun {b c} hbc => ?_
    apply List.disjoint_left.mpr
    intro p hp hq
    obtain ⟨s, hs, rfl⟩ := List.mem_map.mp hp
    obtain ⟨t, ht, hts⟩ := List.mem_map.mp hq
    obtain ⟨j, -, rfl⟩ := mem_blockSlots.mp hs
    obtain ⟨k, -, rfl⟩ := mem_blockSlots.mp ht
    simp only [Prod.mk.injEq] at hts
    exact hbc hts.1.symm

/-- Writing to a data block does not change where the blocks are. -/
theorem block_indirect_writeBlock {d : Disk} {i : Inode} {b : ℕ} (hb : b ∈ i.blocks d)
    (hn : (i.refs d).Nodup) (buf : Block) (hi : i.indirectBlock ≠ 0) :
    (d.writeBlock b buf).block i.indirectBlock.toNat = d.block i.indirectBlock.toNat := by
  refine d.block_writeBlock_of_ne _ fun heq => ?_
  have hd := (List.nodup_append.mp hn).2.2
  rw [if_neg hi] at hd
  exact hd b hb _ (List.mem_singleton.mpr rfl) heq.symm

/-- Rewriting one slot of a directory in place changes that slot only. -/
theorem slots_writeBlock {d : Disk} {i : Inode} {pre post : List Slot} {e e' : DirEntry}
    {b off : ℕ} {buf' : Block} (hsplit : i.slots d = pre ++ (e, b, off) :: post)
    (hn : (i.refs d).Nodup)
    (hslot : DirEntry.fromBytes (buf'.slice off dirEntrySize) = e')
    (hrest : ∀ j < 15, j * 34 ≠ off →
      buf'.slice (j * 34) dirEntrySize = (d.block b).slice (j * 34) dirEntrySize) :
    i.slots (d.writeBlock b buf') = pre ++ (e', b, off) :: post := by
  obtain ⟨hb, -, -⟩ := mem_slots (hsplit ▸ List.mem_append_right pre List.mem_cons_self)
  have hblocks : i.blocks (d.writeBlock b buf') = i.blocks d :=
    blocks_congr (block_indirect_writeBlock hb hn buf')
  have hmap : i.slots (d.writeBlock b buf') =
      (i.slots d).map fun s => if s.2 = (b, off) then (e', b, off) else s := by
    rw [slots, slots, hblocks, List.map_flatMap]
    apply List.flatMap_congr
    intro c _
    rw [Disk.block_writeBlock]
    split_ifs with hc
    · rw [hc]
      exact blockSlots_congr hslot hrest
    · symm
      calc _ = (blockSlots c (d.block c)).map id := List.map_congr_left fun s hs => by
            obtain ⟨j, -, rfl⟩ := mem_blockSlots.mp hs
            exact if_neg (by simp [hc])
        _ = _ := List.map_id _
  have hp := nodup_places (List.nodup_append.mp hn).1
  rw [hsplit] at hp
  rw [hmap, hsplit]
  exact map_replace_of_nodup_keys _ hp _

end Inode

/-- The test of the search for an empty slot. -/
def freeSlot (d : Disk) (s : Slot) : Option (Block × Slot) :=
  if s.1.isEmpty then some (d.block s.2.1, s) else none

section Searches

variable {d : Disk} {dir : Inode}

/-- All blocks of the inode lie on the disk. -/
def Inode.OnDisk (d : Disk) (i : Inode) : Prop := ∀ b ∈ i.refs d, b < 20480

theorem Inode.OnDisk.getBlock (hd : d.Sized) (hb : dir.OnDisk d) (k : ℕ) :
    dir.getBlock d k = some (Inode.pointer (dir.ptr d k)) :=
  Inode.getBlock_eq hd (fun hi => hb _ (Inode.indirectBlock_mem_refs hi)) k

theorem Inode.OnDisk.readBlock (hd : d.Sized) (hb : dir.OnDisk d) {k b : ℕ}
    (hk : k < dir.blockCount.toNat) (hp : Inode.pointer (dir.ptr d k) = some b) :
    d.readBlock b = some (d.block b) := by
  obtain ⟨rfl, h0⟩ := Inode.pointer_eq_some.mp hp
  exact hd.readBlock (hb _ (Inode.mem_refs_of_mem_blocks (Inode.mem_blocks_of_ptr hk h0)))

theorem dirLookup_eq (hd : d.Sized) (hb : dir.OnDisk d) :
    dirLookup d dir = some ((dir.slots d).filter fun s => !s.1.isEmpty) := by
  let f := fun b => (blockSlots b (d.block b)).filter fun s => !s.1.isEmpty
  let g := fun k => ((Inode.pointer (dir.ptr d k)).map f).getD []
  refine Option.bind_eq_some_iff.mpr
    ⟨_, @mapM_eq_some_of_forall _ _ _ g _ (fun k hk => ?_), ?_⟩
  · rw [hb.getBlock hd, Option.bind_eq_bind, Option.bind_some]
    cases hp : Inode.pointer (dir.ptr d k) with
    | none => simp only [g, hp, Option.map_none, Option.getD_none]
    | some b =>
      simp only [hb.readBlock hd (List.mem_range.mp hk) hp, hp, Option.bind_eq_bind,
        Option.bind_some, Option.map_some, Option.getD_some, f, g]
  · rw [← flatMap_filterMap, Inode.slots, List.filter_flatMap, Inode.blocks]

theorem dirFind_eq (hd : d.Sized) (hb : dir.OnDisk d) (name : String) :
    dirFind d dir name = scanM (matchSlot name) (dir.slots d) := by
  rw [Inode.slots, scanM_flatMap, Inode.blocks, scanM_filterMap]
  apply scanM_congr
  intro k hk
  rw [hb.getBlock hd, Option.bind_eq_bind, Option.bind_some]
  cases hp : Inode.pointer (dir.ptr d k) with
  | none => rfl
  | some b =>
    simp only [hb.readBlock hd (List.mem_range.mp hk) hp, Option.bind_eq_bind, Option.bind_some]

private theorem findSome?_freeSlot {b : ℕ} {xs : List Slot} (h : ∀ s ∈ xs, s.2.1 = b) :
    xs.findSome? (freeSlot d) = (xs.find? fun s => s.1.isEmpty).map fun s => (d.block b, s) := by
  induction xs with
  | nil => rfl
  | cons s xs ih =>
    rw [List.findSome?_cons, List.find?_cons, freeSlot, h s (by simp)]
    cases s.1.isEmpty with
    | true => rfl
    | false => exact ih fun t ht => h t (by simp [ht])

private theorem scanM_freeSlot_blockSlots (b : ℕ) :
    scanM (fun s => some (freeSlot d s)) (blockSlots b (d.block b)) =
      some (((blockSlots b (d.block b)).find? fun s => s.1.isEmpty).map fun s => (d.block b, s)) := by
  rw [scanM_pure fun _ _ => rfl, findSome?_freeSlot fun s hs => ?_]
  obtain ⟨j, -, rfl⟩ := mem_blockSlots.mp hs
  rfl

theorem findFreeSlot_eq_some (hd : d.Sized) (hb : dir.OnDisk d) {r : Option (Block × Slot)}
    (h : findFreeSlot d dir = some r) :
    scanM (fun s => some (freeSlot d s)) (dir.slots d) = some r := by
  rw [Inode.slots, scanM_flatMap, Inode.blocks, scanM_filterMap]
  refine scanM_mono (fun k hk y hy => ?_) h
  rw [hb.getBlock hd, Option.bind_eq_bind, Option.bind_some] at hy
  cases hp : Inode.pointer (dir.ptr d k) with
  | none => simp [hp] at hy
  | some b =>
    simp only [hp, hb.readBlock hd (List.mem_range.mp hk) hp, Option.bind_eq_bind,
      Option.bind_some] at hy
    rw [← hy]
    exact scanM_freeSlot_blockSlots b

end Searches

end SimpleFS
