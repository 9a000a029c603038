import SimpleFS.Chained.Content

/-! What a write does to the blocks of a file before the data goes in: the new blocks with what they
hold, and the blocks that are cut off. -/
namespace SimpleFS.Chained

namespace DirEntry

variable (e : DirEntry)

theorem setBlockCount_setBlockCount (m n : ℕ) :
    (e.setBlockCount m).setBlockCount n = e.setBlockCount n :=
  congrArg DirEntry.mk (Vector.copyAt_copyAt_self ..)

theorem setBlockCount_self : e.setBlockCount e.blockCount = e :=
  congrArg DirEntry.mk (e.bytes.copyAt_readLE_self 12 2)

theorem setFirstBlock_self : e.setFirstBlock e.firstBlock = e :=
  congrArg DirEntry.mk (e.bytes.copyAt_readLE_self 10 2)

end DirEntry

theorem DirEntry.fileSize_iterate_discount (e : DirEntry) (m : ℕ) :
    ((fun e => setBlockCount e (e.blockCount + (2 ^ 16 - 1)))^[m] e).fileSize = e.fileSize := by
  induction m generalizing e with
  | zero => rfl
  | succ m ih =>
    rw [Function.iterate_succ_apply, ih]
    exact Vector.readLE_copyAt_of_disjoint _ _ (by decide)

/-- The blocks `l` are linked one after the other behind `last`: each but the last one is rewritten
with the content that the loop has in hand, and the last one stays as it is. -/
def Linked (d d' : Disk) : Cursor → List ℕ → Prop
  | last, [] => d'.block last.block = d.block last.block
  | last, t :: l => d'.block last.block = setNextBlockNo last.data t ∧
      Linked d d' ⟨t, Vector.zeros blockSize⟩ l

namespace Linked

variable {d d' : Disk} {l rest : List ℕ}

theorem congr {d₁ : Disk} {last : Cursor} (h : Linked d d' last l)
    (hs : ∀ x ∈ last.block :: l, d₁.block x = d.block x) : Linked d₁ d' last l := by
  induction l generalizing last with
  | nil => exact Eq.trans h (hs _ List.mem_cons_self).symm
  | cons t l ih => exact ⟨h.1, ih h.2 fun x hx => hs x (List.mem_cons_of_mem _ hx)⟩

/-- Blocks taken from a chain are linked as they were. -/
theorem nextOf_eq {last : Cursor} (h : Linked d d' last l)
    (hc : Chain (nextOf d) 0 (nextOf d last.block) (l ++ rest)) (hlt : ∀ x ∈ l, x < 65536) :
    ∀ x ∈ last.block :: l, nextOf d' x = nextOf d x := by
  induction l generalizing last with
  | nil =>
    intro x hx
    rw [List.mem_singleton.mp hx, nextOf, h, nextOf]
  | cons t l ih =>
    rw [List.forall_mem_cons] at hlt
    obtain ⟨hblock, h⟩ := h
    obtain ⟨_, heq, hnext⟩ := hc.eq_cons fun hz => by
      have hnil := hc.eq_stop_iff.mp hz
      cases hnil
    rw [List.cons_append, List.cons.injEq] at heq
    obtain ⟨ht, rfl⟩ := heq
    refine List.forall_mem_cons.mpr ⟨?_, ?_⟩
    · rw [nextOf, hblock, nextBlockNo_setNextBlockNo _ hlt.1, ht]
    · rw [← ht] at hnext
      exact ih h hnext hlt.2

/-- Blocks taken from the front of a chain still lead to the rest of it. -/
theorem chain {t : ℕ} {data : Block} (h : Linked d d' ⟨t, data⟩ l)
    (hc : Chain (nextOf d) 0 t (t :: (l ++ rest))) (hlt : ∀ x ∈ l, x < 65536)
    (hrest : ∀ x ∈ rest, d'.block x = d.block x) :
    Chain (nextOf d') 0 t (t :: (l ++ rest)) := by
  have hc' := hc
  cases hc' with
  | cons hne hnext =>
    have hsame := h.nextOf_eq hnext hlt
    refine hc.congr fun x hx => ?_
    rw [← List.cons_append] at hx
    rcases List.mem_append.mp hx with hx | hx
    · exact hsame x hx
    · rw [nextOf, hrest x hx, nextOf]

/-- The new blocks hold zeros, but for the last one, which keeps what it held when it was free. -/
theorem fileByte_eq {t : ℕ} (h : Linked d d' ⟨t, Vector.zeros blockSize⟩ l) {p : ℕ}
    (hp : p < (t :: l).length * pageSize) :
    fileByte d' (t :: l) p =
      if p / pageSize + 1 = (t :: l).length then fileByte d (t :: l) p else 0 := by
  induction l generalizing t p with
  | nil =>
    have hlow : p < pageSize := by simpa using hp
    have hblock : d'.block t = d.block t := h
    rw [if_pos (by rw [Nat.div_eq_of_lt hlow]; rfl), fileByte_cons_of_lt _ _ _ hlow,
      fileByte_cons_of_lt _ _ _ hlow, hblock]
  | cons u l ih =>
    obtain ⟨hblock, h⟩ := h
    rcases lt_or_ge p pageSize with hlow | hhigh
    · rw [if_neg (by rw [Nat.div_eq_of_lt hlow]; simp), fileByte_cons_of_lt _ _ _ hlow]
      show (d'.block t).byteAt p = 0
      rw [hblock, setNextBlockNo, Vector.byteAt_copyAt, if_neg (by omega), Vector.byteAt_zeros]
    · obtain ⟨q, rfl⟩ := Nat.exists_eq_add_of_le hhigh
      rw [List.length_cons, Nat.add_mul, Nat.one_mul] at hp
      rw [fileByte_cons_add, fileByte_cons_add, ih h (by omega), Nat.add_div_left _ (by decide)]
      simp only [List.length_cons, Nat.add_right_cancel_iff]

end Linked

section growing

variable {s : State} {e : DirEntry} {taken rest : List ℕ}

theorem growLoop_succ {t : ℕ} {s₁ : State} (ha : allocateBlock s = pure (t, s₁)) (ht : t ≠ 0)
    (e : DirEntry) (last : Cursor) (n : ℕ) :
    growLoop s e last (n + 1) =
      if e.firstBlock = 0 then
        growLoop s₁ ((e.setFirstBlock t).setBlockCount ((e.setFirstBlock t).blockCount + 1))
          ⟨t, Vector.zeros blockSize⟩ n
      else growLoop ⟨s₁.sb, s₁.disk.writeBlock last.block (setNextBlockNo last.data t)⟩
        (e.setBlockCount (e.blockCount + 1)) ⟨t, Vector.zeros blockSize⟩ n := by
  simp only [growLoop, ha, pure_bind, if_neg ht]
  split_ifs <;> rfl

/-- Taking the first block of a free list that has one. -/
structure TakesHead (s : State) (t : ℕ) (rest : List ℕ) : Prop where
  first : s.sb.firstFreeBlock = t
  ne_zero : t ≠ 0
  not_mem : t ∉ rest
  zero_not_mem : 0 ∉ rest
  allocate : allocateBlock s = pure (t, s.take)
  next : Chain (nextOf s.disk) 0 (nextOf s.disk t) rest
  room : s.take.sb.freeBlocks.toNat + 1 = s.sb.freeBlocks.toNat

theorem takesHead (hd : s.disk.Sized) {t : ℕ}
    (hc : Chain (nextOf s.disk) 0 s.sb.firstFreeBlock (t :: rest))
    (hroom : 0 < s.sb.freeBlocks.toNat) (hlt : t < 20480) : TakesHead s t rest := by
  obtain ⟨_, heq, hnext⟩ := hc.eq_cons fun hz => by
    have hnil := hc.eq_stop_iff.mp hz
    cases hnil
  rw [List.cons.injEq] at heq
  obtain ⟨ht, rfl⟩ := heq
  have hnodup := List.nodup_cons.mp hc.nodup
  have hstop := hc.stop_not_mem
  rw [List.mem_cons, not_or] at hstop
  have hfb : s.sb.freeBlocks ≠ 0 := fun hz => by
    rw [hz] at hroom
    exact absurd hroom (Nat.lt_irrefl 0)
  have ha := allocateBlock_of_sized hd hfb (by rw [← ht]; exact hlt)
  rw [← ht] at ha hnext
  refine ⟨ht.symm, Ne.symm hstop.1, hnodup.1, hstop.2, ha, hnext, ?_⟩
  rw [State.take_sb, SuperBlock.take, UInt32.toNat_sub_of_le _ _ (UInt32.le_iff_toNat_le.mpr (by
    rw [UInt32.toNat_one]; omega)), UInt32.toNat_one]
  omega

/-- What is left of the free list, on any disk that keeps its blocks. -/
theorem TakesHead.chain {t : ℕ} (h : TakesHead s t rest) {d : Disk}
    (hs : ∀ x ∈ rest, d.block x = s.disk.block x) :
    Chain (nextOf d) 0 s.take.sb.firstFreeBlock rest := by
  rw [State.take_sb, h.first]
  refine h.next.congr fun x hx => ?_
  rw [nextOf, hs x hx, nextOf]

/-- Growing a file that has a block: the free blocks are linked behind it. -/
theorem growLoop_eq (hd : s.disk.Sized) (hf : e.firstBlock ≠ 0)
    (hfree : Chain (nextOf s.disk) 0 s.sb.firstFreeBlock (taken ++ rest))
    (hroom : taken.length ≤ s.sb.freeBlocks.toNat) (hlt : ∀ x ∈ taken, x < 20480) {last : Cursor}
    (h0 : last.block ≠ 0) (hlast : last.block < 20480) (hout : last.block ∉ taken ++ rest)
    (hcount : e.blockCount + taken.length < 65536) :
    ∃ s', growLoop s e last taken.length =
        pure (some (e.setBlockCount (e.blockCount + taken.length)), s') ∧ s'.disk.Sized ∧
      s'.sb.rootDirBlock = s.sb.rootDirBlock ∧ Linked s.disk s'.disk last taken ∧
      ∀ x, x ≠ 0 → x ≠ last.block → x ∉ taken → s'.disk.block x = s.disk.block x := by
  induction taken generalizing s e last with
  | nil =>
    refine ⟨s, ?_, hd, rfl, rfl, fun _ _ _ _ => rfl⟩
    rw [List.length_nil, Nat.add_zero, e.setBlockCount_self]
    rfl
  | cons t taken ih =>
    rw [List.forall_mem_cons] at hlt
    rw [List.length_cons] at hroom hcount
    rw [List.cons_append] at hfree hout
    rw [List.mem_cons, not_or] at hout
    have ht := takesHead hd hfree (by omega) hlt.1
    obtain ⟨disk, hdisk⟩ : ∃ disk,
      s.take.disk.writeBlock last.block (setNextBlockNo last.data t) = disk := ⟨_, rfl⟩
    have hother : ∀ x, x ≠ 0 → x ≠ last.block → disk.block x = s.disk.block x := by
      intro x hx hxl
      rw [← hdisk, Disk.block_writeBlock_of_ne _ _ hxl, State.block_take _ hx]
    have hmem : ∀ x ∈ taken ++ rest, disk.block x = s.disk.block x := fun x hx =>
      hother x (fun hz => ht.zero_not_mem (hz ▸ hx)) fun heq => hout.2 (heq ▸ hx)
    have hbc : (e.setBlockCount (e.blockCount + 1)).blockCount = e.blockCount + 1 := by
      rw [DirEntry.blockCount_setBlockCount, Nat.mod_eq_of_lt (by omega)]
    have hsized : disk.Sized := by
      rw [← hdisk]
      exact (State.sized_take hd).writeBlock hlast _
    have hleft : taken.length ≤ s.take.sb.freeBlocks.toNat := by
      have := ht.room
      omega
    have ht0 : Cursor.block ⟨t, Vector.zeros blockSize⟩ ≠ 0 := ht.ne_zero
    obtain ⟨s', hloop, hs', hroot, hlinked, hkeep⟩ := ih (s := ⟨s.take.sb, disk⟩)
      (e := e.setBlockCount (e.blockCount + 1)) hsized (by rwa [DirEntry.firstBlock_setBlockCount])
      (ht.chain hmem) hleft hlt.2 ht0 hlt.1 ht.not_mem (by rw [hbc]; omega)
    have hlastBlock : s'.disk.block last.block = setNextBlockNo last.data t := by
      rw [hkeep last.block h0 hout.1 fun hm => hout.2 (List.mem_append_left _ hm)]
      show disk.block last.block = _
      rw [← hdisk, Disk.block_writeBlock_self]
    refine ⟨s', ?_, hs', ?_, ⟨hlastBlock, hlinked.congr fun x hx => ?_⟩, fun x hx hxl hxt => ?_⟩
    · rw [List.length_cons, growLoop_succ ht.allocate ht.ne_zero, if_neg hf, hdisk, hloop, hbc,
        DirEntry.setBlockCount_setBlockCount, Nat.add_assoc, Nat.add_comm 1]
    · rw [hroot]
      show s.take.sb.rootDirBlock = _
      rw [State.take_sb, SuperBlock.take_rootDirBlock]
    · symm
      rcases List.mem_cons.mp hx with heq | hx
      · rw [heq]
        exact hother t ht.ne_zero (Ne.symm hout.1)
      · exact hmem x (List.mem_append_left _ hx)
    · rw [List.mem_cons, not_or] at hxt
      rw [hkeep x hx hxt.1 hxt.2]
      exact hother x hx hxl

/-- A file that has grown has found its blocks in the free list. -/
theorem growLoop_room {free : List ℕ} (hd : s.disk.Sized)
    (hfree : Chain (nextOf s.disk) 0 s.sb.firstFreeBlock free) (hlt : ∀ x ∈ free, x < 20480)
    {last : Cursor} (hlast : e.firstBlock ≠ 0 → last.block < 20480 ∧ last.block ∉ free) {n : ℕ}
    {e' : DirEntry} {s' : State} (hg : growLoop s e last n = pure (some e', s')) :
    n ≤ s.sb.freeBlocks.toNat ∧ n ≤ free.length := by
  induction n generalizing s e last free with
  | zero => exact ⟨Nat.zero_le _, Nat.zero_le _⟩
  | succ n ih =>
    have hnone : ∀ s₁, allocateBlock s ≠ pure (0, s₁) := by
      intro s₁ ha
      simp only [growLoop, ha, pure_bind, if_true, Call.pure_inj, Prod.mk.injEq] at hg
      cases hg.1
    by_cases hfb : s.sb.freeBlocks = 0
    · refine absurd ?_ (hnone s)
      unfold allocateBlock
      rw [if_pos hfb]
    cases free with
    | nil =>
      have hz : s.sb.firstFreeBlock = 0 := hfree.eq_stop_iff.mpr rfl
      have ha := allocateBlock_of_sized hd hfb (by rw [hz]; decide)
      rw [hz] at ha
      exact absurd ha (hnone _)
    | cons t rest =>
      rw [List.forall_mem_cons] at hlt
      have hpos : 0 < s.sb.freeBlocks.toNat := Nat.pos_of_ne_zero fun hz =>
        hfb (UInt32.toNat_inj.mp hz)
      have ht := takesHead hd hfree hpos hlt.1
      have hroom := ht.room
      have htake : ∀ x ∈ rest, s.take.disk.block x = s.disk.block x := fun x hx =>
        s.block_take fun hz => ht.zero_not_mem (hz ▸ hx)
      have hnew : Cursor.block ⟨t, Vector.zeros blockSize⟩ < 20480 ∧
          Cursor.block ⟨t, Vector.zeros blockSize⟩ ∉ rest := ⟨hlt.1, ht.not_mem⟩
      rw [growLoop_succ ht.allocate ht.ne_zero] at hg
      split_ifs at hg with hf
      · obtain ⟨h1, h2⟩ := ih (State.sized_take hd) (ht.chain htake) hlt.2 (fun _ => hnew) hg
        rw [List.length_cons]
        omega
      · obtain ⟨hl, hout⟩ := hlast hf
        obtain ⟨disk, hdisk⟩ : ∃ disk,
          s.take.disk.writeBlock last.block (setNextBlockNo last.data t) = disk := ⟨_, rfl⟩
        have hsized : disk.Sized := by
          rw [← hdisk]
          exact (State.sized_take hd).writeBlock hl _
        have hchain : Chain (nextOf disk) 0 s.take.sb.firstFreeBlock rest := by
          refine ht.chain fun x hx => ?_
          have hxl : x ≠ last.block := fun heq => hout (heq ▸ List.mem_cons_of_mem _ hx)
          rw [← hdisk, Disk.block_writeBlock_of_ne _ _ hxl, htake x hx]
        rw [hdisk] at hg
        obtain ⟨h1, h2⟩ := ih (s := ⟨s.take.sb, disk⟩) hsized hchain hlt.2 (fun _ => hnew) hg
        have h1 : n ≤ s.take.sb.freeBlocks.toNat := h1
        rw [List.length_cons]
        omega

end growing

/-- A file on an image with chains that end and do not meet: the entry `e` in directory block `b`,
the blocks `l`, the directory `dir` and the free list `free`. -/
structure FileAt (s : State) (path : Path) (e : DirEntry) (b : ℕ) (dir l free : List ℕ) : Prop where
  sized : s.disk.Sized
  found : findEntry s path = pure (some (e, b))
  dirChain : Chain (nextOf s.disk) 0 s.sb.rootDirBlock dir
  fileChain : Chain (nextOf s.disk) 0 e.firstBlock l
  freeChain : Chain (nextOf s.disk) 0 s.sb.firstFreeBlock free
  count : l.length = e.blockCount
  fits : e.blockCount = (e.fileSize + pageSize - 1) / pageSize
  file_free : l.Disjoint free
  dir_file : dir.Disjoint l
  dir_free : dir.Disjoint free
  onDisk : ∀ x ∈ l ++ free, x < maxBlocks

/-- The entry once its file has `required` blocks. -/
def fitEntry (s : State) (e : DirEntry) (required : ℕ) : DirEntry :=
  (e.setFirstBlock (if e.firstBlock = 0 then s.sb.firstFreeBlock else e.firstBlock)).setBlockCount
    required

theorem fileSize_fitEntry (s : State) (e : DirEntry) (required : ℕ) :
    (fitEntry s e required).fileSize = e.fileSize := by
  have hfirst : ∀ t, (e.setFirstBlock t).fileSize = e.fileSize := fun t =>
    Vector.readLE_copyAt_of_disjoint _ _ (by decide)
  exact Eq.trans (Vector.readLE_copyAt_of_disjoint _ _ (by decide)) (hfirst _)

theorem blockCount_fitEntry (s : State) (e : DirEntry) {required : ℕ} (h : required < 65536) :
    (fitEntry s e required).blockCount = required := by
  rw [fitEntry, DirEntry.blockCount_setBlockCount, Nat.mod_eq_of_lt h]

theorem firstBlock_fitEntry (s : State) {e : DirEntry} (required : ℕ) (h : e.firstBlock ≠ 0) :
    (fitEntry s e required).firstBlock = e.firstBlock := by
  rw [fitEntry, if_neg h, e.setFirstBlock_self, DirEntry.firstBlock_setBlockCount]

/-- The position lies in a block whose content growing keeps: one that the file had, or the last
new one. -/
def Kept (l : List ℕ) (required p : ℕ) : Prop :=
  p / pageSize < l.length ∨ p / pageSize + 1 = required

instance (l : List ℕ) (required p : ℕ) : Decidable (Kept l required p) :=
  inferInstanceAs (Decidable (_ ∨ _))

/-- The blocks of a file that has been fitted to `required` blocks, some of them `taken`. What was
the free list may follow them. -/
structure Refit (s s' : State) (e : DirEntry) (l taken : List ℕ) (required : ℕ) : Prop where
  returns : resize s e required = pure (some (fitEntry s e required), s')
  sized : s'.disk.Sized
  root : s'.sb.rootDirBlock = s.sb.rootDirBlock
  keep : ∀ x, x ≠ 0 → x ∉ l ++ taken → s'.disk.block x = s.disk.block x
  bytes : ∀ p < required * pageSize, fileByte s'.disk (l ++ taken) p =
    if Kept l required p then fileByte s.disk (l ++ taken) p else 0

namespace FileAt

variable {s : State} {path : Path} {e : DirEntry} {b : ℕ} {dir l free taken rest : List ℕ}
  {required : ℕ}

theorem lt_of_mem (h : FileAt s path e b dir l free) {x : ℕ} (hx : x ∈ l ++ free) : x < 20480 :=
  h.onDisk x hx

theorem firstBlock_eq_zero_iff (h : FileAt s path e b dir l free) : e.firstBlock = 0 ↔ l = [] :=
  h.fileChain.eq_stop_iff

theorem fitEntry_same (h : FileAt s path e b dir l free) (hr : l.length = required)
    (hpos : 0 < required) : fitEntry s e required = e := by
  have hf : e.firstBlock ≠ 0 := fun hz => by
    rw [h.firstBlock_eq_zero_iff.mp hz] at hr
    exact absurd hr (Nat.ne_of_lt hpos)
  rw [fitEntry, if_neg hf, e.setFirstBlock_self, ← hr, h.count, e.setBlockCount_self]

/-- The file has as many blocks as it needs. -/
theorem refit_same (h : FileAt s path e b dir l free) (hr : l.length = required)
    (hpos : 0 < required) :
    Refit s s e l [] required ∧ Chain (nextOf s.disk) 0 (fitEntry s e required).firstBlock (l ++ []) := by
  have hsame := h.fitEntry_same hr hpos
  refine ⟨?_, by rw [hsame, List.append_nil]; exact h.fileChain⟩
  exact {
    returns := by
      have hcount := h.count
      unfold resize
      rw [if_neg (by omega), if_neg (by omega), hsame]
    sized := h.sized
    root := rfl
    keep := fun _ _ _ => rfl
    bytes := by
      intro p hp
      rw [if_pos]
      exact Or.inl (by rw [hr]; exact Nat.div_lt_of_lt_mul (by rwa [Nat.mul_comm])) }

/-- An empty file is given the first blocks of the free list. -/
theorem refit_empty (h : FileAt s path e b dir l free) (hl : l = [])
    (hsplit : free = taken ++ rest) (hlen : taken.length = required) (hpos : 0 < required)
    (hmax : required ≤ maxFileBlocks) (hroom : taken.length ≤ s.sb.freeBlocks.toNat) :
    ∃ s', Refit s s' e l taken required ∧
      Chain (nextOf s'.disk) 0 (fitEntry s e required).firstBlock (l ++ taken ++ rest) := by
  subst hl
  have hf := h.firstBlock_eq_zero_iff.mpr rfl
  have hbc : e.blockCount = 0 := h.count.symm
  cases taken with
  | nil => exact absurd hlen (Nat.ne_of_lt hpos)
  | cons t taken =>
    have hc := h.freeChain
    rw [hsplit, List.cons_append] at hc
    have hlt : ∀ x ∈ t :: taken, x < 20480 := fun x hx =>
      h.lt_of_mem (by rw [hsplit]; exact List.mem_append_right _ (List.mem_append_left _ hx))
    rw [List.forall_mem_cons] at hlt
    rw [List.length_cons] at hlen hroom
    simp only [maxFileBlocks] at hmax
    have ht := takesHead h.sized hc (by omega) hlt.1
    have htake : ∀ x, x ≠ 0 → s.take.disk.block x = s.disk.block x := fun x hx => s.block_take hx
    have hbc₁ : ((e.setFirstBlock t).setBlockCount ((e.setFirstBlock t).blockCount + 1)).blockCount =
        1 := by
      rw [DirEntry.blockCount_setBlockCount, DirEntry.blockCount_setFirstBlock, hbc]
    have hfirst : ((e.setFirstBlock t).setBlockCount
        ((e.setFirstBlock t).blockCount + 1)).firstBlock = t := by
      rw [DirEntry.firstBlock_setBlockCount, DirEntry.firstBlock_setFirstBlock _ (by omega)]
    have ht0 : Cursor.block ⟨t, Vector.zeros blockSize⟩ ≠ 0 := ht.ne_zero
    obtain ⟨s', hloop, hs', hroot, hlinked, hkeep⟩ := growLoop_eq (State.sized_take h.sized)
      (by rw [hfirst]; exact ht.ne_zero)
      (ht.chain fun x hx => htake x fun hz => ht.zero_not_mem (hz ▸ hx))
      (by have := ht.room; omega) hlt.2 ht0 hlt.1 ht.not_mem (by rw [hbc₁]; omega)
    have hlinked : Linked s.disk s'.disk ⟨t, Vector.zeros blockSize⟩ taken :=
      hlinked.congr fun x hx => by
        symm
        refine htake x fun hz => ?_
        rcases List.mem_cons.mp hx with heq | hx
        · exact ht.ne_zero (heq.symm.trans hz)
        · exact ht.zero_not_mem (hz ▸ List.mem_append_left _ hx)
    have hentry : fitEntry s e required = (e.setFirstBlock t).setBlockCount required := by
      rw [fitEntry, if_pos hf, ht.first]
    have hkept : ∀ p, Kept [] required p ↔ p / pageSize + 1 = required := fun p => by
      unfold Kept
      rw [List.length_nil, or_iff_right (Nat.not_lt_zero _)]
    refine ⟨s', ?_, ?_⟩
    · exact {
        returns := by
          unfold resize grow
          rw [if_pos (by omega), if_pos hf, show required - e.blockCount = taken.length + 1 by omega,
            growLoop_succ ht.allocate ht.ne_zero, if_pos hf, hloop, hbc₁,
            DirEntry.setBlockCount_setBlockCount, hentry, show 1 + taken.length = required by omega]
        sized := hs'
        root := by rw [hroot, State.take_sb, SuperBlock.take_rootDirBlock]
        keep := by
          intro x hx hxt
          rw [List.nil_append, List.mem_cons, not_or] at hxt
          rw [hkeep x hx hxt.1 hxt.2, htake x hx]
        bytes := by
          intro p hp
          simp only [hkept, List.nil_append]
          rw [hlinked.fileByte_eq (by rw [List.length_cons, hlen]; exact hp), List.length_cons, hlen] }
    · rw [hentry, DirEntry.firstBlock_setBlockCount, DirEntry.firstBlock_setFirstBlock _ (by omega),
        List.nil_append, List.cons_append]
      rw [ht.first] at hc
      refine hlinked.chain hc (fun x hx => ?_) fun x hx => ?_
      · have := hlt.2 x hx
        omega
      · have hx0 : x ≠ 0 := fun hz => ht.zero_not_mem (hz ▸ List.mem_append_right _ hx)
        have hxt : x ≠ t := fun heq => ht.not_mem (heq ▸ List.mem_append_right _ hx)
        have hnodup := hc.nodup
        rw [List.nodup_cons, List.nodup_append] at hnodup
        rw [hkeep x hx0 hxt fun hm => hnodup.2.2.2 x hm x hx rfl, htake x hx0]

/-- A file with one block is given the first blocks of the free list after it. -/
theorem refit_one (h : FileAt s path e b dir l free) (hl : l.length = 1)
    (hsplit : free = taken ++ rest) (hlen : taken.length + 1 = required) (hpos : 1 < required)
    (hmax : required ≤ maxFileBlocks) (hroom : taken.length ≤ s.sb.freeBlocks.toNat) :
    ∃ s', Refit s s' e l taken required ∧
      Chain (nextOf s'.disk) 0 (fitEntry s e required).firstBlock (l ++ taken ++ rest) := by
  obtain ⟨f, rfl⟩ := List.length_eq_one_iff.mp hl
  have hbc : e.blockCount = 1 := h.count.symm
  have hchain := h.fileChain
  have hf : e.firstBlock ≠ 0 := fun hz => by
    have hnil := h.firstBlock_eq_zero_iff.mp hz
    cases hnil
  obtain ⟨_, heq, hnext⟩ := hchain.eq_cons hf
  rw [List.cons.injEq] at heq
  obtain ⟨hfirst, rfl⟩ := heq
  rw [← hfirst] at hnext hf
  have hz : nextOf s.disk f = 0 := hnext.eq_stop_iff.mpr rfl
  have hflt : f < 20480 := h.lt_of_mem (List.mem_append_left _ List.mem_cons_self)
  have hc := h.freeChain
  rw [hsplit] at hc
  have hlt : ∀ x ∈ taken, x < 20480 := fun x hx =>
    h.lt_of_mem (by rw [hsplit]; exact List.mem_append_right _ (List.mem_append_left _ hx))
  have hfout : f ∉ taken ++ rest := by
    rw [← hsplit]
    exact fun hm => h.file_free List.mem_cons_self hm
  have hf0 : Cursor.block ⟨f, s.disk.block f⟩ ≠ 0 := hf
  simp only [maxFileBlocks] at hmax
  obtain ⟨s', hloop, hs', hroot, hlinked, hkeep⟩ := growLoop_eq h.sized (by rwa [← hfirst]) hc hroom
    hlt hf0 hflt hfout (by omega)
  cases taken with
  | nil => exact absurd hlen (Nat.ne_of_lt hpos)
  | cons t taken =>
    obtain ⟨hblock, hlinked⟩ := hlinked
    rw [List.cons_append] at hc hfout
    rw [List.mem_cons, not_or] at hfout
    rw [List.forall_mem_cons] at hlt
    rw [List.length_cons] at hlen
    have hentry : fitEntry s e required = e.setBlockCount required := by
      rw [fitEntry, if_neg (by rwa [← hfirst]), e.setFirstBlock_self]
    have hlast : Cursor.last ⟨f, s.disk.block f⟩ = some ⟨f, s.disk.block f⟩ := by
      have hz : nextBlockNo (s.disk.block f) = 0 := hz
      rw [Cursor.last, if_neg (not_not.mpr hz)]
    have hft : fitEntry s e required = e.setBlockCount (e.blockCount + (t :: taken).length) := by
      rw [hentry, hbc, List.length_cons, show 1 + (taken.length + 1) = required by omega]
    have hkept : ∀ p, Kept [f] required p ↔ p / pageSize < 1 ∨ p / pageSize + 1 = required :=
      fun _ => Iff.rfl
    have htc : Chain (nextOf s.disk) 0 t (t :: (taken ++ rest)) := by
      have ht := takesHead h.sized hc (by rw [List.length_cons] at hroom; omega) hlt.1
      rw [ht.first] at hc
      exact hc
    refine ⟨s', ?_, ?_⟩
    · exact {
        returns := by
          unfold resize grow
          rw [if_pos (by omega), if_neg (by rwa [← hfirst]), ← hfirst,
            readBlock_of_sized h.sized hflt, pure_bind, hlast,
            show required - e.blockCount = (t :: taken).length by rw [List.length_cons]; omega, hft]
          exact hloop
        sized := hs'
        root := hroot
        keep := by
          intro x hx hxt
          rw [List.singleton_append, List.mem_cons, not_or] at hxt
          exact hkeep x hx hxt.1 hxt.2
        bytes := by
          intro p hp
          simp only [hkept, List.singleton_append]
          rcases lt_or_ge p pageSize with hlow | hhigh
          · rw [if_pos (Or.inl (by rw [Nat.div_eq_of_lt hlow]; exact Nat.one_pos)),
              fileByte_cons_of_lt _ _ _ hlow, fileByte_cons_of_lt _ _ _ hlow]
            show (s'.disk.block f).byteAt p = _
            rw [hblock, setNextBlockNo, Vector.byteAt_copyAt, if_neg (by omega)]
          · obtain ⟨q, rfl⟩ := Nat.exists_eq_add_of_le hhigh
            have hq : q < (t :: taken).length * pageSize := by
              rw [← hlen, Nat.add_mul, Nat.one_mul] at hp
              rw [List.length_cons]
              omega
            rw [fileByte_cons_add, fileByte_cons_add, hlinked.fileByte_eq hq,
              Nat.add_div_left _ (by decide), List.length_cons]
            have hiff : (q / pageSize).succ < 1 ∨ (q / pageSize).succ + 1 = required ↔
                q / pageSize + 1 = taken.length + 1 := by
              obtain ⟨k, hk⟩ : ∃ k, q / pageSize = k := ⟨_, rfl⟩
              rw [hk]
              omega
            simp only [hiff] }
    · rw [hentry, DirEntry.firstBlock_setBlockCount, ← hfirst, List.singleton_append,
        List.cons_append]
      have hnextf : nextOf s'.disk f = t := by
        show nextBlockNo (s'.disk.block f) = t
        rw [hblock, nextBlockNo_setNextBlockNo _ (by omega)]
      refine .cons hf ?_
      rw [hnextf]
      refine hlinked.chain htc (fun x hx => ?_) fun x hx => ?_
      · have := hlt.2 x hx
        omega
      · have hx0 : x ≠ 0 := fun hz =>
          htc.stop_not_mem (hz ▸ List.mem_cons_of_mem _ (List.mem_append_right _ hx))
        have hxf : x ≠ f := fun heq => hfout.2 (heq ▸ List.mem_append_right _ hx)
        have hnodup := htc.nodup
        rw [← List.cons_append, List.nodup_append] at hnodup
        exact hkeep x hx0 hxf fun hm => hnodup.2.2 x hm x hx rfl

/-- A file that may grow gets the blocks it needs. -/
theorem refit (h : FileAt s path e b dir l free) (hpos : 0 < required) (hmax : required ≤ maxFileBlocks)
    (hle : l.length ≤ required) (hone : l.length < required → l.length ≤ 1)
    (hfree : required - l.length ≤ free.length)
    (hroom : required - l.length ≤ s.sb.freeBlocks.toNat) :
    ∃ taken rest tail s', free = taken ++ rest ∧ taken.length = required - l.length ∧
      tail ⊆ free ∧ Refit s s' e l taken required ∧
      Chain (nextOf s'.disk) 0 (fitEntry s e required).firstBlock (l ++ taken ++ tail) := by
  obtain ⟨n, hn⟩ : ∃ n, required - l.length = n := ⟨_, rfl⟩
  have hsplit : free = free.take n ++ free.drop n := (List.take_append_drop n free).symm
  have hlen : (free.take n).length = n := List.length_take_of_le (by omega)
  rcases Nat.lt_or_eq_of_le hle with hlt | heq
  · have hsub : free.drop n ⊆ free := List.drop_subset n free
    have hle1 := hone hlt
    rcases Nat.lt_or_eq_of_le hle1 with hzero | hl1
    · have hnil : l = [] := List.length_eq_zero_iff.mp (by omega)
      have hl0 : l.length = 0 := by rw [hnil]; rfl
      obtain ⟨s', hr, hc⟩ := h.refit_empty hnil hsplit (by omega) hpos hmax (by omega)
      exact ⟨_, _, _, s', hsplit, by omega, hsub, hr, hc⟩
    · obtain ⟨s', hr, hc⟩ := h.refit_one hl1 hsplit (by omega) (by omega) hmax (by omega)
      exact ⟨_, _, _, s', hsplit, by omega, hsub, hr, hc⟩
  · obtain ⟨hr, hc⟩ := h.refit_same heq hpos
    refine ⟨[], free, [], s, rfl, ?_, List.nil_subset _, hr, ?_⟩
    · rw [List.length_nil]
      omega
    · rwa [List.append_nil]

end FileAt

section cutting

variable {s : State} {b : ℕ} {l : List ℕ} {α : Type} {note : α → α}

/-- Freeing a chain on the disk returns, and touches its blocks only. -/
theorem freeLoop_eq (hd : s.disk.Sized) (h : Chain (nextOf s.disk) 0 b l)
    (hl : ∀ x ∈ l, x < 20480) (a : α) :
    ∃ s', State.freeLoop note a s b = pure (note^[l.length] a, s') ∧ s'.disk.Sized ∧
      s'.sb.rootDirBlock = s.sb.rootDirBlock ∧
      ∀ x, x ≠ 0 → x ∉ l → s'.disk.block x = s.disk.block x := by
  induction l generalizing s b a with
  | nil =>
    cases h
    refine ⟨s, ?_, hd, rfl, fun _ _ _ => rfl⟩
    rw [State.freeLoop, if_pos rfl]
    rfl
  | cons c l ih =>
    have hnodup := (List.nodup_cons.mp h.nodup).1
    cases h with
    | cons hne h =>
      rw [List.forall_mem_cons] at hl
      obtain ⟨s₁, hs₁⟩ : ∃ s₁, freeBlock s c = s₁ := ⟨_, rfl⟩
      have hsized : s₁.disk.Sized := by
        rw [← hs₁, freeBlock]
        exact (hd.writeBlock hl.1 _).writeBlock (by decide) _
      have hblock : ∀ x, x ≠ 0 → x ≠ c → s₁.disk.block x = s.disk.block x := by
        intro x hx hxc
        rw [← hs₁, freeBlock, Disk.block_writeBlock_of_ne _ _ hx, Disk.block_writeBlock_of_ne _ _ hxc]
      have hchain : Chain (nextOf s₁.disk) 0 (nextBlockNo (s.disk.block c)) l := by
        refine h.congr fun x hx => ?_
        have hx0 : x ≠ 0 := fun hz => h.stop_not_mem (hz ▸ hx)
        have hxc : x ≠ c := fun heq => hnodup (heq ▸ hx)
        rw [nextOf, hblock x hx0 hxc, nextOf]
      have hroot : s₁.sb.rootDirBlock = s.sb.rootDirBlock := by
        rw [← hs₁, freeBlock]
      obtain ⟨s', hf, hs', hr, hkeep⟩ := ih hsized hchain hl.2 (note a)
      refine ⟨s', ?_, hs', hr.trans hroot, fun x hx hxl => ?_⟩
      · rw [State.freeLoop, if_neg hne, readBlock_of_sized hd hl.1, pure_bind, hs₁]
        exact hf
      · rw [List.mem_cons, not_or] at hxl
        rw [hkeep x hx hxl.2, hblock x hx hxl.1]

end cutting

/-- A file that has too many blocks keeps the first ones. -/
theorem FileAt.shrunk {s : State} {path : Path} {e : DirEntry} {b : ℕ} {dir l free : List ℕ}
    {required : ℕ} (h : FileAt s path e b dir l free) (hpos : 0 < required)
    (hlt : required < l.length) :
    ∃ e' s', resize s e required = pure (some e', s') ∧ s'.disk.Sized ∧
      s'.sb.rootDirBlock = s.sb.rootDirBlock ∧ e'.firstBlock = e.firstBlock ∧
      e'.fileSize = e.fileSize ∧ e'.blockCount = required ∧
      Chain (nextOf s'.disk) 0 e.firstBlock (l.take required) ∧
      ∀ x, x ≠ 0 → x ∉ l → s'.disk.block x = s.disk.block x := by
  have hcount := h.count
  have hl : ∀ x ∈ l, x < 20480 := fun x hx => h.lt_of_mem (List.mem_append_left _ hx)
  obtain ⟨c, hskip, hdrop⟩ := skipLoop_eq h.sized h.fileChain hl
    (show required - 1 ≤ l.length by omega)
  have hc0 : c ≠ 0 := fun hz => by
    have hnil := congrArg List.length (hdrop.eq_stop_iff.mp hz)
    rw [List.length_drop, List.length_nil] at hnil
    omega
  obtain ⟨freed, hsplit, hfreed⟩ := hdrop.eq_cons hc0
  obtain ⟨pre, hpre⟩ : ∃ pre, l.take (required - 1) = pre := ⟨_, rfl⟩
  have hlen : pre.length = required - 1 := by
    rw [← hpre]
    exact List.length_take_of_le (by omega)
  have hls : l = pre ++ c :: freed := by rw [← hpre, ← hsplit, List.take_append_drop]
  have htake : l.take required = pre ++ [c] := by
    have hlen' : (pre ++ [c]).length = required := by
      rw [List.length_append, List.length_singleton]
      omega
    rw [hls, List.append_cons, ← hlen', List.take_left]
  have hfile := h.fileChain
  have hnodup := hfile.nodup
  rw [hls] at hfile hnodup
  obtain ⟨-, hcf, hdisj⟩ := List.nodup_append.mp hnodup
  have hclt : c < 20480 := hl c (by rw [hls]; exact List.mem_append_right _ List.mem_cons_self)
  obtain ⟨disk, hdisk⟩ : ∃ disk,
    s.disk.writeBlock c (setNextBlockNo (s.disk.block c) 0) = disk := ⟨_, rfl⟩
  have hother : ∀ x, x ≠ c → disk.block x = s.disk.block x := by
    intro x hx
    rw [← hdisk, Disk.block_writeBlock_of_ne _ _ hx]
  have hcnext : nextOf disk c = 0 := by
    rw [← hdisk, nextOf_writeBlock, if_pos rfl, nextBlockNo_setNextBlockNo _ (by decide)]
  have hsized : disk.Sized := by
    rw [← hdisk]
    exact h.sized.writeBlock hclt _
  have hfchain : Chain (nextOf disk) 0 (nextBlockNo (s.disk.block c)) freed := by
    refine hfreed.congr fun x hx => ?_
    have hxc : x ≠ c := fun heq => (List.nodup_cons.mp hcf).1 (heq ▸ hx)
    rw [nextOf, hother x hxc, nextOf]
  have hfl : ∀ x ∈ freed, x < 20480 := fun x hx =>
    hl x (by rw [hls]; exact List.mem_append_right _ (List.mem_cons_of_mem _ hx))
  obtain ⟨note, hnote⟩ : ∃ note : DirEntry → DirEntry,
    (fun entry => entry.setBlockCount (entry.blockCount + (2 ^ 16 - 1))) = note := ⟨_, rfl⟩
  have hfree : ∃ s', State.freeLoop note e ⟨s.sb, disk⟩ (nextBlockNo (s.disk.block c)) =
      pure (note^[freed.length] e, s') ∧ s'.disk.Sized ∧ s'.sb.rootDirBlock = s.sb.rootDirBlock ∧
      ∀ x, x ≠ 0 → x ∉ freed → s'.disk.block x = disk.block x :=
    freeLoop_eq (s := ⟨s.sb, disk⟩) hsized hfchain hfl e
  obtain ⟨s', hf, hs', hroot, hkeep⟩ := hfree
  have hlens : l.length = required - 1 + (freed.length + 1) := by
    rw [hls, List.length_append, List.length_cons, hlen]
  obtain ⟨hfirst, hblocks, -⟩ := e.iterate_discount (m := freed.length) (by omega) rfl
  have hsize := e.fileSize_iterate_discount freed.length
  rw [hnote] at hfirst hblocks hsize
  have hkept : Chain (nextOf disk) 0 e.firstBlock (pre ++ [c]) := by
    refine hfile.relink (fun x hx => ?_) ?_
    · rw [nextOf, hother x fun heq => hdisj x hx c List.mem_cons_self heq, nextOf]
    · rw [hcnext]
      exact .nil
  refine ⟨_, s', ?_, hs', hroot, hfirst, hsize, by omega, ?_, fun x hx hxl => ?_⟩
  · unfold resize shrink
    rw [if_neg (by omega), if_pos (by omega), hskip, pure_bind, readBlock_of_sized h.sized hclt,
      pure_bind, hnote]
    simp only [hdisk, hf, pure_bind]
  · rw [htake]
    refine hkept.congr fun x hx => ?_
    have hx0 : x ≠ 0 := fun hz => hkept.stop_not_mem (hz ▸ hx)
    have hxf : x ∉ freed := by
      intro hm
      rcases List.mem_append.mp hx with hx | hx
      · exact hdisj x hx x (List.mem_cons_of_mem _ hm) rfl
      · rw [List.mem_singleton.mp hx] at hm
        exact (List.nodup_cons.mp hcf).1 hm
    rw [nextOf, hkeep x hx0 hxf, nextOf]
  · have hxf : x ∉ freed := fun hm =>
      hxl (by rw [hls]; exact List.mem_append_right _ (List.mem_cons_of_mem _ hm))
    have hxc : x ≠ c := fun heq =>
      hxl (by rw [hls, heq]; exact List.mem_append_right _ List.mem_cons_self)
    rw [hkeep x hx hxf, hother x hxc]

end SimpleFS.Chained
