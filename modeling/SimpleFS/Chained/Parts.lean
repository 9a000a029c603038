import Mathlib.Data.List.Perm.Subperm
import SimpleFS.Chained.Entries
import SimpleFS.Chained.Program
import SimpleFS.Foundation.Chain
import SimpleFS.Foundation.Exclusive

/-! How the blocks are shared out: the chain of free blocks, the chain of directory blocks, a chain
for each file, and what a request holds in between. -/
namespace SimpleFS.Chained
open Function

/-- The next pointers of an image. -/
def nextOf (d : Disk) (b : ℕ) : ℕ := nextBlockNo (d.block b)

theorem nextOf_writeBlock (d : Disk) (b : ℕ) (buf : Block) (c : ℕ) :
    nextOf (d.writeBlock b buf) c = if c = b then nextBlockNo buf else nextOf d c := by
  rw [nextOf, Disk.block_writeBlock]
  split_ifs <;> rfl

/-- The superblock after the first free block is taken. -/
def SuperBlock.take (sb : SuperBlock) (next : ℕ) : SuperBlock :=
  { sb with firstFreeBlock := next, freeBlocks := sb.freeBlocks - 1 }

/-- The state after the first free block is taken. -/
def State.take (s : State) : State :=
  let sb := s.sb.take (nextOf s.disk s.sb.firstFreeBlock)
  ⟨sb, s.disk.writeBlock 0 (sb.copyTo (Vector.zeros blockSize))⟩

theorem State.take_sb (s : State) :
    s.take.sb = s.sb.take (nextOf s.disk s.sb.firstFreeBlock) := by
  unfold take
  rfl

theorem State.block_take (s : State) {b : ℕ} (hb : b ≠ 0) :
    s.take.disk.block b = s.disk.block b := by
  unfold take
  exact Disk.block_writeBlock_of_ne _ _ hb

theorem SuperBlock.take_rootDirBlock (sb : SuperBlock) (next : ℕ) :
    (sb.take next).rootDirBlock = sb.rootDirBlock := by
  unfold take
  rfl

theorem allocateBlock_eq_pure {s s' : State} {b : ℕ} (h0 : s.sb.freeBlocks ≠ 0)
    (ha : allocateBlock s = pure (b, s')) : b = s.sb.firstFreeBlock ∧ s' = s.take := by
  unfold allocateBlock at ha
  rw [if_neg h0] at ha
  obtain ⟨blockData, hread, ha⟩ := Call.bind_eq_pure.mp ha
  obtain rfl := readBlock_eq_pure hread
  simp only [Call.pure_inj, Prod.mk.injEq] at ha
  exact ⟨ha.1.symm, ha.2.symm⟩

/-- Who may hold a block: the free list, the root directory, the file of entry `i` in directory
block `b`, or the request at work. -/
inductive Owner
  | free
  | dir
  | file (b i : ℕ)
  | hand
  deriving DecidableEq

/-- A state whose blocks are shared out as `held` says. The file `loose` is being rearranged. -/
structure Parted (s : State) (held : Owner → List ℕ) (loose : Option (ℕ × ℕ)) : Prop where
  free : Chain (nextOf s.disk) 0 s.sb.firstFreeBlock (held .free)
  dir : Chain (nextOf s.disk) 0 s.sb.rootDirBlock (held .dir)
  file : ∀ b ∈ held .dir, ∀ i < dirEntriesPerBlock, loose ≠ some (b, i) →
    (dirAt (s.disk.block b) i).Used →
      Chain (nextOf s.disk) 0 (dirAt (s.disk.block b) i).firstBlock (held (.file b i)) ∧
        (held (.file b i)).length = (dirAt (s.disk.block b) i).blockCount
  exclusive : Exclusive held
  counted : (held .free).length = s.sb.freeBlocks.toNat
  inside : ∀ o, ∀ b ∈ held o, 0 < b ∧ b < maxBlocks
  stopped : nextOf s.disk 0 = 0
  ended : ∀ b ∈ held .dir, ∀ i < dirEntriesPerBlock, (dirAt (s.disk.block b) i).Ended

/-- Two owners share out anew what they held. -/
def give (held : Owner → List ℕ) (o p : Owner) (l l' : List ℕ) : Owner → List ℕ :=
  update (update held o l) p l'

section give

variable (held : Owner → List ℕ) {o p q : Owner} (l l' : List ℕ)

@[simp] theorem give_right : give held o p l l' p = l' := update_self ..

theorem give_left (h : o ≠ p) : give held o p l l' o = l := by
  rw [give, update_of_ne h, update_self]

theorem give_of_ne (ho : q ≠ o) (hp : q ≠ p) : give held o p l l' q = held q := by
  rw [give, update_of_ne hp, update_of_ne ho]

end give

namespace Parted

variable {s : State} {held : Owner → List ℕ} {loose : Option (ℕ × ℕ)}

theorem ne_zero (h : Parted s held loose) {o : Owner} {b : ℕ} (hb : b ∈ held o) : b ≠ 0 :=
  Nat.pos_iff_ne_zero.mp (h.inside o b hb).1

theorem ne_of_mem (h : Parted s held loose) {o p : Owner} (hop : o ≠ p) {b c : ℕ}
    (hb : b ∈ held o) (hc : c ∈ held p) : b ≠ c :=
  fun hbc => hop (h.exclusive.owner_unique hb (hbc ▸ hc))

theorem length_le (h : Parted s held loose) (o : Owner) : (held o).length ≤ maxBlocks := by
  have hsub : held o ⊆ List.range maxBlocks :=
    fun b hb => List.mem_range.mpr (h.inside o b hb).2
  have hle := (List.subperm_of_subset (h.exclusive.nodup o) hsub).length_le
  rwa [List.length_range] at hle

/-- The blocks in hand may be written at will, and so may the data of files and of free blocks. -/
theorem frame (h : Parted s held loose) {disk : Disk}
    (hnext : ∀ o, o ≠ .hand → ∀ b ∈ held o, nextOf disk b = nextOf s.disk b)
    (hdir : ∀ b ∈ held .dir, disk.block b = s.disk.block b) (h0 : nextOf disk 0 = 0) :
    Parted ⟨s.sb, disk⟩ held loose where
  free := h.free.congr (hnext .free (by decide))
  dir := h.dir.congr (hnext .dir (by decide))
  file b hb i hi hne hused := by
    rw [hdir b hb] at hused ⊢
    obtain ⟨hc, hlen⟩ := h.file b hb i hi hne hused
    exact ⟨hc.congr (hnext (.file b i) (by simp)), hlen⟩
  exclusive := h.exclusive
  counted := h.counted
  inside := h.inside
  stopped := h0
  ended b hb i hi := by
    rw [hdir b hb]
    exact h.ended b hb i hi

theorem of_block_eq (h : Parted s held loose) {disk : Disk}
    (heq : ∀ b, disk.block b = s.disk.block b) : Parted ⟨s.sb, disk⟩ held loose := by
  have hnext : nextOf disk = nextOf s.disk := by
    funext c
    rw [nextOf, heq, nextOf]
  refine h.frame (fun _ _ _ _ => by rw [hnext]) (fun b _ => heq b) ?_
  rw [hnext]
  exact h.stopped

theorem writeBlock_hand (h : Parted s held loose) {b : ℕ} (hb : b ∈ held .hand) (buf : Block) :
    Parted ⟨s.sb, s.disk.writeBlock b buf⟩ held loose := by
  refine h.frame ?_ ?_ ?_
  · intro o ho c hc
    rw [nextOf_writeBlock, if_neg (h.ne_of_mem ho hc hb)]
  · intro c hc
    exact Disk.block_writeBlock_of_ne _ _ (h.ne_of_mem (by decide) hc hb)
  · rw [nextOf_writeBlock, if_neg (h.ne_zero hb).symm]
    exact h.stopped

theorem nextOf_copyTo (h : Parted s held loose) (sb : SuperBlock) :
    nextOf (s.disk.writeBlock 0 (sb.copyTo (Vector.zeros blockSize))) = nextOf s.disk := by
  funext c
  rw [nextOf_writeBlock]
  split_ifs with hc
  · rw [nextBlockNo_copyTo, nextBlockNo_zeros, hc, h.stopped]
  · rfl

/-- The superblock on the disk is never read again. -/
theorem copyTo (h : Parted s held loose) (sb : SuperBlock) :
    Parted ⟨s.sb, s.disk.writeBlock 0 (sb.copyTo (Vector.zeros blockSize))⟩ held loose := by
  refine h.frame ?_ ?_ ?_
  · intro o _ c _
    rw [h.nextOf_copyTo sb]
  · intro c hc
    exact Disk.block_writeBlock_of_ne _ _ (h.ne_zero hc)
  · rw [h.nextOf_copyTo sb]
    exact h.stopped

/-- The request puts blocks down, or takes note of them in another order. -/
theorem keep (h : Parted s held loose) {l : List ℕ} (hn : l.Nodup) (hl : l ⊆ held .hand) :
    Parted s (update held .hand l) loose where
  free := h.free
  dir := h.dir
  file := h.file
  exclusive := by
    have hd : ∀ x ∈ held .free, ∀ y ∈ l, x ≠ y := fun x hx y hy =>
      h.ne_of_mem (by decide) hx (hl hy)
    have hsub : held .free ++ l ⊆ held .free ++ held .hand :=
      List.append_subset.mpr ⟨List.subset_append_left _ _, fun x hx =>
        List.mem_append_right _ (hl hx)⟩
    have ht := h.exclusive.transfer (show Owner.free ≠ .hand by decide)
      (List.nodup_append.mpr ⟨h.exclusive.nodup _, hn, hd⟩) hsub
    rwa [update_eq_self] at ht
  counted := h.counted
  inside o b hb := by
    by_cases ho : o = .hand
    · subst ho
      rw [update_self] at hb
      exact h.inside .hand b (hl hb)
    · rw [update_of_ne ho] at hb
      exact h.inside o b hb
  stopped := h.stopped
  ended := h.ended

theorem give_inside {o p q : Owner} {l l' : List ℕ} {b : ℕ} (h : Parted s held loose)
    (hsub : l ++ l' ⊆ held o ++ held p) (hb : b ∈ give held o p l l' q) : 0 < b ∧ b < maxBlocks := by
  have hfrom : b ∈ l ++ l' → 0 < b ∧ b < maxBlocks := fun hm =>
    (List.mem_append.mp (hsub hm)).elim (h.inside o b) (h.inside p b)
  by_cases hq : q = p
  · subst hq
    rw [give, update_self] at hb
    exact hfrom (List.mem_append_right _ hb)
  · rw [give, update_of_ne hq] at hb
    by_cases hq : q = o
    · subst hq
      rw [update_self] at hb
      exact hfrom (List.mem_append_left _ hb)
    · rw [update_of_ne hq] at hb
      exact h.inside q b hb

/-- `allocate_block` hands out the first free block, whose next pointer it leaves as it is. -/
theorem allocateBlock (h : Parted s held loose) {b : ℕ} {s' : State}
    (ha : Chained.allocateBlock s = pure (b, s')) :
    (b = 0 ∧ s' = s ∧ held .free = []) ∨
      ∃ rest, held .free = b :: rest ∧
        Parted s' (give held .free .hand rest (b :: held .hand)) loose ∧
        Chain (nextOf s'.disk) 0 b (b :: rest) ∧
        ∀ c ≠ 0, s'.disk.block c = s.disk.block c := by
  by_cases h0 : s.sb.freeBlocks = 0
  · left
    unfold Chained.allocateBlock at ha
    simp only [if_pos h0, Call.pure_inj, Prod.mk.injEq] at ha
    refine ⟨ha.1.symm, ha.2.symm, List.length_eq_zero_iff.mp ?_⟩
    rw [h.counted, h0]
    rfl
  · right
    obtain ⟨rfl, rfl⟩ := allocateBlock_eq_pure h0 ha
    have hpos : s.sb.freeBlocks.toNat ≠ 0 := fun hz => h0 (UInt32.toNat_inj.mp hz)
    have hne : s.sb.firstFreeBlock ≠ 0 := fun hz => hpos <| by
      rw [← h.counted, (h.free.eq_stop_iff).mp hz]
      rfl
    obtain ⟨rest, hfree, hrest⟩ := h.free.eq_cons hne
    have hsub : rest ++ s.sb.firstFreeBlock :: held .hand ⊆ held .free ++ held .hand := by
      rw [hfree]
      exact List.perm_middle.subset
    have hnodup : (rest ++ s.sb.firstFreeBlock :: held .hand).Nodup := by
      rw [List.perm_middle.nodup_iff, ← List.cons_append, ← hfree]
      exact List.nodup_append.mpr ⟨h.exclusive.nodup _, h.exclusive.nodup _, fun x hx y hy =>
        h.ne_of_mem (by decide) hx hy⟩
    have hlen : rest.length + 1 = s.sb.freeBlocks.toNat := by
      rw [← h.counted, hfree, List.length_cons]
    have hd := h.copyTo (s.sb.take (nextOf s.disk s.sb.firstFreeBlock))
    have hnext : nextOf s.take.disk = nextOf s.disk := h.nextOf_copyTo _
    have hchain : Chain (nextOf s.take.disk) 0 s.sb.firstFreeBlock (s.sb.firstFreeBlock :: rest) := by
      rw [hnext]
      exact .cons hne hrest
    refine ⟨rest, hfree, ?_, hchain, fun _ hc => s.block_take hc⟩
    exact {
      free := by
        rw [hnext]
        exact hrest
      dir := by
        rw [State.take_sb, SuperBlock.take_rootDirBlock]
        exact hd.dir
      file := hd.file
      exclusive := h.exclusive.transfer (by decide) hnodup hsub
      counted := by
        rw [State.take_sb, SuperBlock.take, give_left _ _ _ (by decide)]
        rw [UInt32.toNat_sub_of_le _ _ (UInt32.le_iff_toNat_le.mpr (by
          rw [UInt32.toNat_one]; omega)), UInt32.toNat_one]
        omega
      inside := fun o c hc => h.give_inside hsub hc
      stopped := hd.stopped
      ended := hd.ended }

/-- `free_block` puts a block in front of the free list. -/
theorem freeBlock (h : Parted s held loose) {b : ℕ} {l : List ℕ} (hperm : held .hand = b :: l) :
    Parted (Chained.freeBlock s b) (give held .hand .free l (b :: held .free)) loose ∧
      (∀ c, c ≠ b → nextOf (Chained.freeBlock s b).disk c = nextOf s.disk c) ∧
      ∀ c, c ≠ 0 → c ≠ b → (Chained.freeBlock s b).disk.block c = s.disk.block c := by
  have hb : b ∈ held .hand := by
    rw [hperm]
    exact List.mem_cons_self
  have hlt : s.sb.firstFreeBlock < 65536 := by
    by_cases hz : s.sb.firstFreeBlock = 0
    · omega
    · have hin := (h.inside .free _ (h.free.head_mem hz)).2
      simp only [maxBlocks, diskSize, blockSize] at hin
      omega
  have hsub : l ++ b :: held .free ⊆ held .hand ++ held .free := by
    rw [hperm]
    exact List.perm_middle.subset
  have hnodup : (l ++ b :: held .free).Nodup := by
    rw [List.perm_middle.nodup_iff, ← List.cons_append, ← hperm]
    exact List.nodup_append.mpr ⟨h.exclusive.nodup _, h.exclusive.nodup _, fun x hx y hy =>
      h.ne_of_mem (by decide) hx hy⟩
  have hw := h.writeBlock_hand hb (setNextBlockNo (Vector.zeros blockSize) s.sb.firstFreeBlock)
  have hd := hw.copyTo { s.sb with firstFreeBlock := b, freeBlocks := s.sb.freeBlocks + 1 }
  have hn : nextOf (Chained.freeBlock s b).disk = nextOf (s.disk.writeBlock b
      (setNextBlockNo (Vector.zeros blockSize) s.sb.firstFreeBlock)) := hw.nextOf_copyTo _
  have hnext : ∀ c, c ≠ b → nextOf (Chained.freeBlock s b).disk c = nextOf s.disk c := by
    intro c hc
    rw [hn, nextOf_writeBlock, if_neg hc]
  have hfree : Chain (nextOf (Chained.freeBlock s b).disk) 0 b (b :: held .free) := by
    refine .cons (h.ne_zero hb) ?_
    rw [hn, nextOf_writeBlock, if_pos rfl, nextBlockNo_setNextBlockNo _ hlt]
    exact hw.free
  refine ⟨?_, hnext, ?_⟩
  · exact {
      free := hfree
      dir := hd.dir
      file := hd.file
      exclusive := h.exclusive.transfer (by decide) hnodup hsub
      counted := by
        show (held .free).length + 1 = (s.sb.freeBlocks + 1).toNat
        have hle := h.length_le .free
        have hc := h.counted
        simp only [maxBlocks, diskSize, blockSize] at hle
        rw [UInt32.toNat_add, UInt32.toNat_one, Nat.mod_eq_of_lt (by omega)]
        omega
      inside := fun o c hc => h.give_inside hsub hc
      stopped := hd.stopped
      ended := hd.ended }
  · intro c hc hcb
    exact (Disk.block_writeBlock_of_ne _ _ hc).trans (Disk.block_writeBlock_of_ne _ _ hcb)

/-- The request takes over the blocks of a file. -/
theorem loosen (h : Parted s held none) (b i : ℕ) :
    Parted s (give held (.file b i) .hand [] (held (.file b i))) (some (b, i)) where
  free := h.free
  dir := h.dir
  file c hc j hj hne hused := by
    have hne : Owner.file c j ≠ .file b i := by
      intro heq
      simp only [Owner.file.injEq] at heq
      exact hne (by rw [heq.1, heq.2])
    rw [give_of_ne _ _ _ hne (by simp)]
    exact h.file c hc j hj (by simp) hused
  exclusive := h.exclusive.transfer (by simp) (h.exclusive.nodup _) (List.subset_append_left _ _)
  counted := h.counted
  inside _ _ hc := h.give_inside (List.subset_append_left _ _) hc
  stopped := h.stopped
  ended := h.ended

/-- The request gives a file a chain of blocks. -/
theorem settle {b i : ℕ} (h : Parted s held (some (b, i))) {l : List ℕ} (hl : l ⊆ held .hand)
    (hfile : (dirAt (s.disk.block b) i).Used →
      Chain (nextOf s.disk) 0 (dirAt (s.disk.block b) i).firstBlock l ∧
        l.length = (dirAt (s.disk.block b) i).blockCount) (hn : l.Nodup) :
    Parted s (give held .hand (.file b i) [] l) none where
  free := h.free
  dir := h.dir
  file c hc j hj _ hused := by
    by_cases heq : (c, j) = (b, i)
    · simp only [Prod.mk.injEq] at heq
      obtain ⟨rfl, rfl⟩ := heq
      rw [give_right]
      exact hfile hused
    · have hne : Owner.file c j ≠ .file b i := by
        intro hf
        simp only [Owner.file.injEq] at hf
        exact heq (by rw [hf.1, hf.2])
      rw [give_of_ne _ _ _ (by simp) hne]
      exact h.file c hc j hj (fun hl => heq (Option.some.inj hl).symm) hused
  exclusive := h.exclusive.transfer (by simp) hn
    (fun _ hx => List.mem_append_left _ (hl hx))
  counted := h.counted
  inside _ _ hc := h.give_inside (fun _ hx => List.mem_append_left _ (hl hx)) hc
  stopped := h.stopped
  ended := h.ended

/-- An entry is stored in a directory block. -/
theorem writeEntry {b i : ℕ} (h : Parted s held (some (b, i))) (hb : b ∈ held .dir)
    (hi : i < dirEntriesPerBlock) {e : DirEntry} (he : e.Ended) :
    Parted ⟨s.sb, s.disk.writeBlock b (setDirAt (s.disk.block b) i e)⟩ held (some (b, i)) ∧
      nextOf (s.disk.writeBlock b (setDirAt (s.disk.block b) i e)) = nextOf s.disk := by
  have hnext : nextOf (s.disk.writeBlock b (setDirAt (s.disk.block b) i e)) = nextOf s.disk := by
    funext c
    rw [nextOf_writeBlock]
    split_ifs with hc
    · rw [nextBlockNo_setDirAt _ _ hi, hc, nextOf]
    · rfl
  have hdir : ∀ c j, j < dirEntriesPerBlock → (c, j) ≠ (b, i) →
      dirAt ((s.disk.writeBlock b (setDirAt (s.disk.block b) i e)).block c) j =
        dirAt (s.disk.block c) j := by
    intro c j hj hne
    by_cases hc : c = b
    · subst hc
      rw [Disk.block_writeBlock_self, dirAt_setDirAt _ _ hi hj,
        if_neg fun hji => hne (by rw [hji])]
    · rw [Disk.block_writeBlock_of_ne _ _ hc]
  refine ⟨?_, hnext⟩
  exact {
    free := by
      rw [hnext]
      exact h.free
    dir := by
      rw [hnext]
      exact h.dir
    file := by
      intro c hc j hj hne hused
      have hne' : (c, j) ≠ (b, i) := fun heq => hne (by rw [heq])
      rw [hdir c j hj hne'] at hused ⊢
      rw [hnext]
      exact h.file c hc j hj hne hused
    exclusive := h.exclusive
    counted := h.counted
    inside := h.inside
    stopped := by
      rw [hnext]
      exact h.stopped
    ended := by
      intro c hc j hj
      by_cases heq : (c, j) = (b, i)
      · simp only [Prod.mk.injEq] at heq
        obtain ⟨rfl, rfl⟩ := heq
        rw [Disk.block_writeBlock_self, dirAt_setDirAt _ _ hi hi, if_pos rfl]
        exact he
      · rw [hdir c j hj heq]
        exact h.ended c hc j hj }

/-- A new directory block is linked in after the last one. -/
theorem appendDir (h : Parted s held loose) {c last : ℕ} {pre l : List ℕ}
    (hhand : held .hand = c :: l) (hdir : held .dir = pre ++ [last]) {disk : Disk}
    (hlast : disk.block last = setNextBlockNo (s.disk.block last) c)
    (hnew : disk.block c = Vector.zeros blockSize)
    (hsame : ∀ b, b ≠ last → b ≠ c → disk.block b = s.disk.block b) :
    Parted ⟨s.sb, disk⟩ (give held .hand .dir l (held .dir ++ [c])) loose := by
  have hc : c ∈ held .hand := by
    rw [hhand]
    exact List.mem_cons_self
  have hlastMem : last ∈ held .dir := by
    rw [hdir]
    exact List.mem_append_right _ List.mem_cons_self
  have hne : c ≠ last := h.ne_of_mem (by decide) hc hlastMem
  have hlt : c < 65536 := by
    have hin := (h.inside .hand c hc).2
    simp only [maxBlocks, diskSize, blockSize] at hin
    omega
  have hnextLast : nextOf disk last = c := by
    rw [nextOf, hlast, nextBlockNo_setNextBlockNo _ hlt]
  have hnextNew : nextOf disk c = 0 := by
    rw [nextOf, hnew, nextBlockNo_zeros]
  have hnext : ∀ b, b ≠ last → b ≠ c → nextOf disk b = nextOf s.disk b := by
    intro b hb hbc
    rw [nextOf, hsame b hb hbc, nextOf]
  have hother : ∀ o, o ≠ .hand → o ≠ .dir → ∀ b ∈ held o, nextOf disk b = nextOf s.disk b :=
    fun o ho ho' b hb => hnext b (h.ne_of_mem ho' hb hlastMem) (h.ne_of_mem ho hb hc)
  have hblank : ∀ i, (dirAt (disk.block c) i).bytes.byteAt 0 = 0 := by
    intro i
    rw [hnew, dirAt, Vector.byteAt_slice _ _ (by decide), Vector.byteAt_zeros]
  have hentry : ∀ b ∈ held .dir, ∀ i < dirEntriesPerBlock,
      dirAt (disk.block b) i = dirAt (s.disk.block b) i := by
    intro b hb i hi
    by_cases hbl : b = last
    · rw [hbl, hlast, dirAt_setNextBlockNo _ _ hi]
    · rw [hsame b hbl (h.ne_of_mem (by decide) hb hc)]
  have hmem : ∀ {b}, b ∈ held .dir ++ [c] → b ∈ held .dir ∨ b = c := by
    intro b hb
    rw [List.mem_append, List.mem_singleton] at hb
    exact hb
  have hperm : (l ++ (held .dir ++ [c])).Perm (held .hand ++ held .dir) := by
    rw [hhand, ← List.append_assoc]
    exact List.perm_append_singleton _ _
  have hsub := hperm.subset
  have hnodup : (l ++ (held .dir ++ [c])).Nodup := by
    rw [hperm.nodup_iff]
    exact List.nodup_append.mpr ⟨h.exclusive.nodup _, h.exclusive.nodup _, fun x hx y hy =>
      h.ne_of_mem (by decide) hx hy⟩
  exact {
    free := h.free.congr (hother .free (by decide) (by decide))
    dir := by
      show Chain _ _ _ (held .dir ++ [c])
      have hd := h.dir
      have hnd := h.exclusive.nodup .dir
      rw [hdir] at hd hnd ⊢
      rw [List.append_assoc]
      refine hd.relink ?_ ?_
      · intro x hx
        have hxl : x ≠ last := fun heq =>
          (List.nodup_append.mp hnd).2.2 x hx last List.mem_cons_self heq
        refine hnext x hxl (h.ne_of_mem (o := .dir) (p := .hand) (by decide) ?_ hc)
        rw [hdir]
        exact List.mem_append_left _ hx
      · rw [hnextLast]
        refine .cons (h.ne_zero hc) ?_
        rw [hnextNew]
        exact .nil
    file := by
      intro b hb i hi hl hused
      rcases hmem hb with hb | rfl
      · rw [hentry b hb i hi] at hused ⊢
        obtain ⟨hc, hlen⟩ := h.file b hb i hi hl hused
        exact ⟨hc.congr (hother _ (by simp) (by simp)), hlen⟩
      · exact absurd (hblank i) hused
    exclusive := h.exclusive.transfer (by decide) hnodup hsub
    counted := h.counted
    inside := fun o b hb => h.give_inside hsub hb
    stopped := by
      rw [hnext 0 (h.ne_zero hlastMem).symm (h.ne_zero hc).symm]
      exact h.stopped
    ended := by
      intro b hb i hi
      rcases hmem hb with hb | rfl
      · rw [hentry b hb i hi]
        exact h.ended b hb i hi
      · exact ⟨0, Nat.zero_le _, hblank i⟩ }

end Parted

end SimpleFS.Chained
