import SimpleFS.Chained.Resize

/-! What create, write and unlink do to the blocks that are shared out. -/
namespace SimpleFS.Chained
open Function

/-- How the search for a place of a new entry ends. -/
inductive SlotOutcome (s : State) (held : Owner → List ℕ) : Option (ℕ × Block × ℕ) → State → Prop
  | none : SlotOutcome s held none s
  | found {b i} : b ∈ held .dir → findFree (s.disk.block b) = some i →
      SlotOutcome s held (some (b, s.disk.block b, i)) s
  | added {new s₁ pre last} : allocateBlock s = pure (new, s₁) → new ≠ 0 →
      held .dir = pre ++ [last] →
      SlotOutcome s held (some (new, Vector.zeros blockSize, 0))
        ⟨s₁.sb, s₁.disk.writeBlock last (setNextBlockNo (s.disk.block last) new)⟩

/-- The bytes of an entry that `simplefs_create` sets. -/
theorem DirEntry.blank_file (e : DirEntry) (name : List UInt8) (now : Int64) {e' : DirEntry}
    (he : ((((e.setName name).setFirstBlock 0).setBlockCount 0).setFileSize 0).setMtime now = e') :
    e'.firstBlock = 0 ∧ e'.blockCount = 0 ∧ e'.Ended := by
  obtain rfl := he
  have hf : (((((e.setName name).setFirstBlock 0).setBlockCount 0).setFileSize 0).setMtime
      now).firstBlock = 0 := by
    rw [firstBlock_setMtime, firstBlock_setFileSize, firstBlock_setBlockCount,
      firstBlock_setFirstBlock _ (by decide)]
  refine ⟨hf, ?_, ended_of_firstBlock (by rw [hf])⟩
  rw [blockCount_setMtime, blockCount_setFileSize, blockCount_setBlockCount]

theorem Path.name_ne_nil (path : Path) (h : path.bytes ≠ [0x2F]) : path.name ≠ [] := by
  have hlast := path.named.resolve_left h
  intro hnil
  have hrev := List.reverse_eq_nil_iff.mp hnil
  rw [List.getLast?_eq_head?_reverse] at hlast
  cases hb : path.bytes.reverse with
  | nil =>
    have hs := path.slash
    rw [List.reverse_eq_nil_iff.mp hb] at hs
    cases hs
  | cons x xs =>
    rw [hb] at hrev hlast
    rw [List.takeWhile_cons] at hrev
    split_ifs at hrev with hx
    simp only [ne_eq, decide_eq_true_eq, not_not] at hx
    exact hlast (by rw [hx]; rfl)

namespace Parted

variable {s s' : State} {held : Owner → List ℕ} {loose : Option (ℕ × ℕ)}

/-- What `find_entry` finds is a file, in the first place with its name. -/
theorem findEntry (h : Parted s held loose) {path : Path} {e : DirEntry} {b : ℕ}
    (hf : Chained.findEntry s path = pure (some (e, b))) :
    b ∈ held .dir ∧ ∃ i, i < dirEntriesPerBlock ∧ findName (s.disk.block b) path.name = some i ∧
      e = dirAt (s.disk.block b) i ∧ e.name = path.name ∧ e.Used := by
  unfold Chained.findEntry at hf
  split_ifs at hf with hroot
  · rw [Call.pure_inj] at hf
    cases hf
  obtain ⟨hb, -, i, hi, rfl⟩ := findLoop_eq_pure h.dir hf
  obtain ⟨hlt, hname, -⟩ := (findName_eq_some (h.ended b hb)).mp hi
  refine ⟨hb, i, hlt, hi, rfl, hname, DirEntry.used_iff.mpr ?_⟩
  rw [hname]
  exact path.name_ne_nil hroot

theorem slotLoop (h : Parted s held loose) {pre l : List ℕ} {b : ℕ} (hl : held .dir = pre ++ l)
    (hc : Chain (nextOf s.disk) 0 b l) {r : Option (ℕ × Block × ℕ)}
    (hs : s.slotLoop b = pure (r, s')) : SlotOutcome s held r s' := by
  induction l generalizing b pre with
  | nil =>
    cases hc
    unfold State.slotLoop at hs
    simp only [if_pos, Call.pure_inj, Prod.mk.injEq] at hs
    obtain ⟨rfl, rfl⟩ := hs
    exact .none
  | cons a l ih =>
    cases hc with
    | cons hne hnext =>
      unfold State.slotLoop at hs
      rw [if_neg hne] at hs
      obtain ⟨blockData, hread, hs⟩ := Call.bind_eq_pure.mp hs
      obtain rfl := readBlock_eq_pure hread
      cases hfree : findFree (s.disk.block a) with
      | some i =>
        simp only [hfree, Call.pure_inj, Prod.mk.injEq] at hs
        obtain ⟨rfl, rfl⟩ := hs
        exact .found (by rw [hl]; exact List.mem_append_right _ List.mem_cons_self) hfree
      | none =>
        simp only [hfree] at hs
        by_cases hlast : nextBlockNo (s.disk.block a) = 0
        · rw [if_pos hlast] at hs
          obtain ⟨⟨new, s₁⟩, ha, hs⟩ := Call.bind_eq_pure.mp hs
          by_cases hnew : new = 0
          · simp only [if_pos hnew, Call.pure_inj, Prod.mk.injEq] at hs
            obtain ⟨rfl, rfl⟩ := hs
            rcases h.allocateBlock ha with ⟨-, rfl, -⟩ | ⟨rest, hfree, -⟩
            · exact .none
            · have hin := h.inside .free new (by rw [hfree]; exact List.mem_cons_self)
              omega
          · simp only [if_neg hnew, Call.pure_inj, Prod.mk.injEq] at hs
            obtain ⟨rfl, rfl⟩ := hs
            have hz : nextOf s.disk a = 0 := hlast
            rw [hz] at hnext
            rw [hnext.eq_nil] at hl
            have hblock : s₁.disk.block a = s.disk.block a := by
              rcases h.allocateBlock ha with ⟨-, rfl, -⟩ | ⟨_, -, -, -, hblocks⟩
              · rfl
              · exact hblocks a hne
            exact .added ha hnew hl
        · rw [if_neg hlast] at hs
          exact ih (by rw [hl, List.append_cons]) hnext hs

/-- Storing an entry and giving its file the blocks it says. -/
theorem store {b i : ℕ} (h : Parted s held (some (b, i))) (hb : b ∈ held .dir)
    (hi : i < dirEntriesPerBlock) {e : DirEntry} (he : e.Ended) {l : List ℕ} (hn : l.Nodup)
    (hl : l ⊆ held .hand) (hfile : e.Used → Chain (nextOf s.disk) 0 e.firstBlock l ∧
      l.length = e.blockCount) :
    Parted ⟨s.sb, s.disk.writeBlock b (setDirAt (s.disk.block b) i e)⟩
      (give held .hand (.file b i) [] l) none := by
  obtain ⟨hw, hnext⟩ := h.writeEntry hb hi he
  have hentry : dirAt ((s.disk.writeBlock b (setDirAt (s.disk.block b) i e)).block b) i = e := by
    rw [Disk.block_writeBlock_self, dirAt_setDirAt _ _ hi hi, if_pos rfl]
  refine hw.settle hl ?_ hn
  rw [hentry, hnext]
  exact hfile

theorem newEntry (h : Parted s held none) {b i : ℕ} (hb : b ∈ held .dir)
    (hi : i < dirEntriesPerBlock) {e : DirEntry} (hfirst : e.firstBlock = 0)
    (hcount : e.blockCount = 0) (he : e.Ended) :
    ∃ held', Parted ⟨s.sb, s.disk.writeBlock b (setDirAt (s.disk.block b) i e)⟩ held' none := by
  refine ⟨_, (h.loosen b i).store hb hi he (l := []) List.nodup_nil (List.nil_subset _) fun _ => ?_⟩
  rw [hfirst, hcount]
  exact ⟨.nil, rfl⟩

/-- The end of a write: the data goes to blocks in hand or to free ones, and the entry is stored
with the blocks in hand, or not at all. -/
theorem finishWrite {b i : ℕ} (h : Parted s held (some (b, i))) (hb : b ∈ held .dir)
    (hi : i < dirEntriesPerBlock) {name : List UInt8}
    (hname : findName (s.disk.block b) name = some i) {e e' : DirEntry} {l : List ℕ}
    (hsame : (dirAt (s.disk.block b) i).SameName e')
    (hc : Chain (nextOf s.disk) 0 e.firstBlock l) (hl : l ⊆ held .hand ++ held .free)
    (hstored : e'.name = name → Chain (nextOf s.disk) 0 e'.firstBlock (held .hand) ∧
      (held .hand).length = e'.blockCount)
    (hdropped : e'.name ≠ name → (dirAt (s.disk.block b) i).firstBlock = 0 ∧
      (dirAt (s.disk.block b) i).blockCount = 0)
    {n c off : ℕ} {data : List UInt8} (hskip : skipLoop s.disk n e.firstBlock = pure c)
    (hoff : off ≤ pageSize) (hwrite : s.writeLoop c off data = pure s') :
    ∃ held', Parted ⟨s'.sb, s'.disk.writeBlock b (storeEntry (s'.disk.block b) e'.name e')⟩ held'
      none := by
  obtain ⟨hsb, hnext, hblocks⟩ :=
    writeLoop_eq_pure (skipLoop_eq_pure hc h.stopped hskip) hoff hwrite
  obtain ⟨sb, disk⟩ := s'
  dsimp only at hsb hnext hblocks ⊢
  subst hsb
  have hdir : ∀ x ∈ held .dir, disk.block x = s.disk.block x := by
    refine fun x hx => hblocks x fun hm => ?_
    rcases List.mem_append.mp (hl (List.mem_of_mem_drop hm)) with hm | hm
    · exact h.ne_of_mem (o := .dir) (p := .hand) (by decide) hx hm rfl
    · exact h.ne_of_mem (o := .dir) (p := .free) (by decide) hx hm rfl
  have hq : Parted ⟨s.sb, disk⟩ held (some (b, i)) := by
    refine h.frame (fun _ _ _ _ => by rw [hnext]) hdir ?_
    rw [hnext]
    exact h.stopped
  rw [← hdir b hb] at hname hsame hdropped
  have hend := hq.ended b hb
  rcases storeEntry_eq hend hname hsame with ⟨heq, hstore⟩ | ⟨heq, hstore⟩
  · obtain ⟨hchain, hlen⟩ := hstored heq
    have hended : e'.Ended := by
      rw [DirEntry.ended_iff, heq, ← ((findName_eq_some hend).mp hname).2.1]
      exact DirEntry.ended_iff.mp (hend i hi)
    rw [hstore]
    refine ⟨_, hq.store hb hi hended (h.exclusive.nodup _) (List.Subset.refl _) fun _ => ?_⟩
    rw [hnext]
    exact ⟨hchain, hlen⟩
  · obtain ⟨hfirst, hcount⟩ := hdropped heq
    rw [hstore]
    have hsettled := hq.settle (l := []) (List.nil_subset _) (fun _ => by
      rw [hfirst, hcount]
      exact ⟨.nil, rfl⟩) List.nodup_nil
    refine ⟨_, hsettled.of_block_eq fun x => ?_⟩
    rw [Disk.block_writeBlock]
    split_ifs with hx
    · rw [hx]
    · rfl

end Parted

/-- A write that does not leave a file joined to the free list: it needs no further block, or takes
all that are left, or its new blocks are not recorded in the entry. The last happens where the space
runs out, and where the number of the first block runs on from a name of full length. -/
def WriteFits (s : State) (path : Path) (offset size : ℕ) : Prop :=
  ∀ e b, findEntry s path = pure (some (e, b)) →
    requiredBlocks offset size ≤ maxFileBlocks → e.blockCount < requiredBlocks offset size →
      s.sb.freeBlocks = 0 ∨
      requiredBlocks offset size - e.blockCount = s.sb.freeBlocks.toNat ∨
      e.firstBlock = 0 ∧ (s.sb.freeBlocks.toNat < requiredBlocks offset size ∨
        path.name.length = filenameLen ∧ s.sb.firstFreeBlock % 256 ≠ 0)

/-- What a write has in hand once the blocks of file `i` in directory block `b` are fitted: all of
the file's blocks, or blocks that its entry will not record. -/
inductive ResizeOutcome (s : State) (held : Owner → List ℕ) (b i : ℕ) (path : Path)
    (e : DirEntry) : Option DirEntry → State → Prop
  | refused {s'} : (∃ held', Parted s' held' none) → ResizeOutcome s held b i path e none s'
  | fitted {e' s' held'} : Parted s' held' (some (b, i)) → held' .dir = held .dir →
      (∀ x ∈ held .dir, s'.disk.block x = s.disk.block x) → e.SameName e' →
      Chain (nextOf s'.disk) 0 e'.firstBlock (held' .hand) →
      (held' .hand).length = e'.blockCount →
      e'.firstBlock = e.firstBlock ∨ e.firstBlock = 0 ∧ e.blockCount = 0 →
      ResizeOutcome s held b i path e (some e') s'
  | unrecorded {e' s' held' l} : Parted s' held' (some (b, i)) → held' .dir = held .dir →
      (∀ x ∈ held .dir, s'.disk.block x = s.disk.block x) → e.SameName e' →
      Chain (nextOf s'.disk) 0 e'.firstBlock l → l ⊆ held' .hand ++ held' .free →
      e.firstBlock = 0 → e.blockCount = 0 → path.name.length = filenameLen →
      e'.firstBlock % 256 ≠ 0 → ResizeOutcome s held b i path e (some e') s'

theorem Parted.resize {s s' : State} {held : Owner → List ℕ} {b i : ℕ} {path : Path} {e : DirEntry}
    {required : ℕ} {r : Option DirEntry} (h : Parted s held none) (hb : b ∈ held .dir)
    (hi : i < dirEntriesPerBlock) (he : e = dirAt (s.disk.block b) i) (hused : e.Used)
    (hfits : e.blockCount < required → s.sb.freeBlocks = 0 ∨
      required - e.blockCount = s.sb.freeBlocks.toNat ∨
      e.firstBlock = 0 ∧ (s.sb.freeBlocks.toNat < required ∨
        path.name.length = filenameLen ∧ s.sb.firstFreeBlock % 256 ≠ 0))
    (hmax : required ≤ maxFileBlocks) (hr : Chained.resize s e required = pure (r, s')) :
    ResizeOutcome s held b i path e r s' := by
  obtain ⟨hc, hcount⟩ := h.file b hb i hi (by simp) (he ▸ hused)
  rw [← he] at hc hcount
  have hp := h.loosen b i
  have hhand : give held (.file b i) .hand [] (held (.file b i)) .hand = held (.file b i) :=
    give_right ..
  have hempty : e.firstBlock = 0 → held (.file b i) = [] := (hc.eq_stop_iff).mp
  rw [← hhand] at hc hcount
  unfold Chained.resize at hr
  by_cases hmore : required > e.blockCount
  · rw [if_pos hmore] at hr
    have hnone : e.firstBlock = 0 → e.blockCount = 0 := fun hf => by
      rw [← hcount, hhand, hempty hf, List.length_nil]
    have hfree : (give held (.file b i) .hand [] (held (.file b i)) .free).length =
        s.sb.freeBlocks.toNat := h.counted
    cases hp.grow hc hmore hr with
    | full hlen hp' hdir hsame =>
      refine .refused ?_
      rw [hfree] at hlen
      by_cases hf : e.firstBlock = 0
      · refine ⟨_, hp'.settle (l := []) (List.nil_subset _) (fun _ => ?_) List.nodup_nil⟩
        rw [hdir b hb, ← he, hf, hnone hf]
        exact ⟨.nil, rfl⟩
      · have hz : s.sb.freeBlocks = 0 := by
          rcases hfits hmore with hz | heq | ⟨hz, -⟩
          · exact hz
          · omega
          · exact absurd hz hf
        rw [hsame (List.length_eq_zero_iff.mp (by rw [hfree, hz]; rfl))]
        exact ⟨held, h⟩
    | @grown e' s' taken rest hsplit hlen hq hck hdir hname hfirst hbc =>
      rw [hsplit, List.length_append] at hfree
      have hsum : e.blockCount + (required - e.blockCount) = required := by omega
      simp only [maxFileBlocks] at hmax
      rw [hsum, Nat.mod_eq_of_lt (by omega)] at hbc
      by_cases hrest : rest = []
      · subst hrest
        refine .fitted hq rfl hdir hname ?_ ?_ ?_
        · rw [give_right]
          rwa [List.append_nil] at hck
        · rw [give_right, List.length_append, hcount, hlen, hbc, hsum]
        · by_cases hf : e.firstBlock = 0
          · exact Or.inr ⟨hf, hnone hf⟩
          · rw [if_neg hf] at hfirst
            exact Or.inl hfirst
      · have hpos := List.length_pos_iff.mpr hrest
        have hcase : e.firstBlock = 0 ∧ path.name.length = filenameLen ∧
            s.sb.firstFreeBlock % 256 ≠ 0 := by
          rcases hfits hmore with hz | heq | ⟨hf, hlt | hlong⟩
          · rw [hz] at hfree
            have hzero : (0 : UInt32).toNat = 0 := rfl
            omega
          · omega
          · have hbz := hnone hf
            omega
          · exact ⟨hf, hlong⟩
        obtain ⟨hf, hlong, hrun⟩ := hcase
        rw [if_pos hf] at hfirst
        refine .unrecorded hq rfl hdir hname hck ?_ hf (hnone hf) hlong (by rwa [hfirst])
        rw [give_right, give_left _ _ _ (by decide)]
        exact List.Subset.refl _
  · rw [if_neg hmore] at hr
    by_cases hless : required < e.blockCount
    · rw [if_pos hless] at hr
      obtain ⟨⟨e₁, s₁⟩, hs, hr⟩ := Call.bind_eq_pure.mp hr
      simp only [Call.pure_inj, Prod.mk.injEq] at hr
      obtain ⟨rfl, rfl⟩ := hr
      obtain ⟨kept, freed, hsplit, hq, hck, hlen, hfirst, hname, hdir⟩ := hp.shrink hc hcount hless hs
      refine .fitted hq rfl hdir hname ?_ ?_ (Or.inl hfirst)
      · rwa [give_left _ _ _ (by decide)]
      · rwa [give_left _ _ _ (by decide)]
    · simp only [if_neg hless, Call.pure_inj, Prod.mk.injEq] at hr
      obtain ⟨rfl, rfl⟩ := hr
      exact .fitted hp rfl (fun _ _ => rfl) (fun _ _ => rfl) hc hcount (Or.inl rfl)

/-- The blocks of a state are shared out, and no request is at work. -/
def Sound (s : State) : Prop := ∃ held, Parted s held none

namespace Sound

variable {s s' : State}

/-- Nothing is in hand between requests. -/
theorem parted (h : Sound s) : ∃ held, Parted s held none ∧ held .hand = [] := by
  obtain ⟨held, hp⟩ := h
  exact ⟨_, hp.keep List.nodup_nil (List.nil_subset _), update_self ..⟩

theorem simplefsCreate (h : Sound s) {now : Int64} {path : Path} {r : ℤ}
    (hc : Chained.simplefsCreate s now path = pure (r, s')) : Sound s' := by
  unfold Chained.simplefsCreate at hc
  split_ifs at hc with hlen
  · simp only [Call.pure_inj, Prod.mk.injEq] at hc
    exact hc.2 ▸ h
  obtain ⟨found, -, hc⟩ := Call.bind_eq_pure.mp hc
  cases found with
  | some f =>
    simp only [Call.pure_inj, Prod.mk.injEq] at hc
    exact hc.2 ▸ h
  | none =>
    obtain ⟨⟨slot, s₁⟩, hslot, hc⟩ := Call.bind_eq_pure.mp hc
    obtain ⟨held, hp, hhand⟩ := h.parted
    cases hp.slotLoop (List.nil_append _).symm hp.dir hslot with
    | none =>
      simp only [Call.pure_inj, Prod.mk.injEq] at hc
      exact hc.2 ▸ h
    | @found b i hb hfree =>
      simp only [Call.pure_inj, Prod.mk.injEq] at hc
      obtain ⟨-, rfl⟩ := hc
      obtain ⟨hfirst, hcount, he⟩ := DirEntry.blank_file _ path.name now rfl
      exact hp.newEntry hb (findFree_eq_some hfree).1 hfirst hcount he
    | @added new s₂ pre last ha hnew hdir =>
      simp only [Call.pure_inj, Prod.mk.injEq] at hc
      obtain ⟨-, rfl⟩ := hc
      rcases hp.allocateBlock ha with ⟨hz, -, -⟩ | ⟨rest, hfree, hq, -, hblocks⟩
      · exact absurd hz hnew
      have hlast : last ∈ held .dir := by
        rw [hdir]
        exact List.mem_append_right _ List.mem_cons_self
      have hne : new ≠ last := hp.ne_of_mem (o := .free) (p := .dir) (by decide)
        (by rw [hfree]; exact List.mem_cons_self) hlast
      obtain ⟨d, hd⟩ : ∃ d, (s₂.disk.writeBlock last (setNextBlockNo (s.disk.block last)
        new)).writeBlock new (Vector.zeros blockSize) = d := ⟨_, rfl⟩
      have hdlast : d.block last = setNextBlockNo (s₂.disk.block last) new := by
        rw [← hd, Disk.block_writeBlock_of_ne _ _ hne.symm, Disk.block_writeBlock_self,
          hblocks last (hp.ne_zero hlast)]
      have hdnew : d.block new = Vector.zeros blockSize := by
        rw [← hd, Disk.block_writeBlock_self]
      have hdsame : ∀ b, b ≠ last → b ≠ new → d.block b = s₂.disk.block b := by
        intro b hbl hbn
        rw [← hd, Disk.block_writeBlock_of_ne _ _ hbn, Disk.block_writeBlock_of_ne _ _ hbl]
      have hq' := hq.appendDir (give_right ..) hdir hdlast hdnew hdsame
      obtain ⟨hfirst, hcount, he⟩ := DirEntry.blank_file (dirAt (Vector.zeros blockSize) 0)
        path.name now rfl
      have hmem : new ∈ give (give held .free .hand rest (new :: held .hand)) .hand .dir (held .hand)
          (held .dir ++ [new]) .dir := by
        rw [give_right]
        exact List.mem_append_right _ List.mem_cons_self
      obtain ⟨held', hr⟩ := hq'.newEntry (i := 0) hmem (by decide) hfirst hcount he
      refine ⟨held', hr.of_block_eq fun b => ?_⟩
      simp only [← hd, Disk.block_writeBlock]
      split_ifs <;> rfl

theorem simplefsUnlink (h : Sound s) {path : Path} {r : ℤ}
    (hu : Chained.simplefsUnlink s path = pure (r, s')) : Sound s' := by
  unfold Chained.simplefsUnlink at hu
  obtain ⟨found, hfind, hu⟩ := Call.bind_eq_pure.mp hu
  cases found with
  | none =>
    simp only [Call.pure_inj, Prod.mk.injEq] at hu
    exact hu.2 ▸ h
  | some f =>
    obtain ⟨e, b⟩ := f
    obtain ⟨⟨_, s₁⟩, hfree, hu⟩ := Call.bind_eq_pure.mp hu
    obtain ⟨blockData, hread, hu⟩ := Call.bind_eq_pure.mp hu
    obtain rfl := readBlock_eq_pure hread
    simp only [Call.pure_inj, Prod.mk.injEq] at hu
    obtain ⟨-, rfl⟩ := hu
    obtain ⟨held, hp, -⟩ := h.parted
    obtain ⟨hb, i, hi, hname, he, hpath, hused⟩ := hp.findEntry hfind
    obtain ⟨hc, -⟩ := hp.file b hb i hi (by simp) (he ▸ hused)
    rw [← he] at hc
    have hl := hp.loosen b i
    have hhand : give held (.file b i) .hand [] (held (.file b i)) .hand =
        held (.file b i) ++ [] := by
      rw [give_right, List.append_nil]
    obtain ⟨-, hq, -, hblocks⟩ := hl.freeLoop hc hhand hfree
    have hdir : s₁.disk.block b = s.disk.block b := by
      refine hblocks b (hp.ne_zero hb) fun hm => ?_
      exact hp.ne_of_mem (o := .dir) (p := .file b i) (by simp) hb hm rfl
    have hblank : ¬ DirEntry.Used ⟨Vector.zeros dirEntrySize⟩ := fun hu =>
      hu (Vector.byteAt_zeros 0)
    have hstore : storeEntry (s₁.disk.block b) e.name ⟨Vector.zeros dirEntrySize⟩ =
        setDirAt (s₁.disk.block b) i ⟨Vector.zeros dirEntrySize⟩ := by
      unfold storeEntry
      simp only [hdir, hpath, hname]
    rw [hstore]
    exact ⟨_, hq.store hb hi ⟨0, Nat.zero_le _, Vector.byteAt_zeros 0⟩ (l := []) List.nodup_nil
      (List.nil_subset _) fun hu => absurd hu hblank⟩

theorem simplefsWrite (h : Sound s) {now : Int64} {path : Path} {offset : ℕ} {data : List UInt8}
    {r : ℤ} (hfits : WriteFits s path offset data.length)
    (hw : Chained.simplefsWrite s now path offset data = pure (r, s')) : Sound s' := by
  unfold Chained.simplefsWrite at hw
  obtain ⟨found, hfind, hw⟩ := Call.bind_eq_pure.mp hw
  cases found with
  | none =>
    simp only [Call.pure_inj, Prod.mk.injEq] at hw
    exact hw.2 ▸ h
  | some f =>
    obtain ⟨e, b⟩ := f
    simp only at hw
    obtain ⟨required, hreq⟩ : ∃ n, requiredBlocks offset data.length = n := ⟨_, rfl⟩
    have hfits := hfits e b hfind
    rw [hreq] at hfits hw
    by_cases hbig : required > maxFileBlocks
    · simp only [if_pos hbig, Call.pure_inj, Prod.mk.injEq] at hw
      exact hw.2 ▸ h
    rw [if_neg hbig] at hw
    obtain ⟨⟨e₁, s₁⟩, hresize, hw⟩ := Call.bind_eq_pure.mp hw
    obtain ⟨held, hp, -⟩ := h.parted
    obtain ⟨hb, i, hi, hname, he, hpath, hused⟩ := hp.findEntry hfind
    obtain ⟨hc, hcount⟩ := hp.file b hb i hi (by simp) (he ▸ hused)
    rw [← he] at hc hcount
    have hended : e.Ended := he ▸ hp.ended b hb i hi
    have hoff : offset % pageSize ≤ pageSize := (Nat.mod_lt _ (by decide)).le
    cases hp.resize hb hi he hused (hfits (by omega)) (by omega) hresize with
    | refused hs =>
      simp only [Call.pure_inj, Prod.mk.injEq] at hw
      exact hw.2 ▸ hs
    | @fitted e' _ held' hq hdirs hblocks hsame hchain hlen hfirst =>
      obtain ⟨c, hskip, hw⟩ := Call.bind_eq_pure.mp hw
      obtain ⟨s₂, hwrite, hw⟩ := Call.bind_eq_pure.mp hw
      obtain ⟨blockData, hread, hw⟩ := Call.bind_eq_pure.mp hw
      obtain rfl := readBlock_eq_pure hread
      simp only [Call.pure_inj, Prod.mk.injEq] at hw
      obtain ⟨-, rfl⟩ := hw
      have hentry : dirAt (s₁.disk.block b) i = e := by rw [hblocks b hb, ← he]
      refine hq.finishWrite (hdirs ▸ hb) hi (by rw [hblocks b hb]; exact hname)
        (by rw [hentry]; exact DirEntry.sameName_setFields _ _ _ hsame) hchain
        (List.subset_append_left _ _) (fun _ => ?_) (fun hne => ?_) hskip hoff hwrite
      · rw [DirEntry.firstBlock_setMtime, DirEntry.firstBlock_setFileSize,
          DirEntry.blockCount_setMtime, DirEntry.blockCount_setFileSize]
        exact ⟨hchain, hlen⟩
      · rw [hentry]
        rcases hfirst with hfirst | hz
        · refine absurd ?_ hne
          rw [← hpath]
          refine DirEntry.name_eq_of_sameName hended (DirEntry.sameName_setFields _ _ _ hsame) ?_
          rw [DirEntry.firstBlock_setMtime, DirEntry.firstBlock_setFileSize, hfirst]
        · exact hz
    | @unrecorded e' _ held' l hq hdirs hblocks hsame hchain hl hf hz hlong hrun =>
      obtain ⟨c, hskip, hw⟩ := Call.bind_eq_pure.mp hw
      obtain ⟨s₂, hwrite, hw⟩ := Call.bind_eq_pure.mp hw
      obtain ⟨blockData, hread, hw⟩ := Call.bind_eq_pure.mp hw
      obtain rfl := readBlock_eq_pure hread
      simp only [Call.pure_inj, Prod.mk.injEq] at hw
      obtain ⟨-, rfl⟩ := hw
      have hentry : dirAt (s₁.disk.block b) i = e := by rw [hblocks b hb, ← he]
      refine hq.finishWrite (hdirs ▸ hb) hi (by rw [hblocks b hb]; exact hname)
        (by rw [hentry]; exact DirEntry.sameName_setFields _ _ _ hsame) hchain hl (fun heq => ?_)
        (fun _ => by rw [hentry]; exact ⟨hf, hz⟩) hskip hoff hwrite
      refine absurd (DirEntry.byteAt_first_eq_zero_iff _ |>.mp ?_) hrun
      have hend := (DirEntry.name_spec ((e'.setFileSize (if (offset + data.length) % 2 ^ 64 >
        e'.fileSize then (offset + data.length) % 2 ^ 64 else e'.fileSize)).setMtime now)).2
      rw [heq, hlong, DirEntry.byteAt_first, DirEntry.firstBlock_setMtime,
        DirEntry.firstBlock_setFileSize, ← DirEntry.byteAt_first] at hend
      exact hend

end Sound

end SimpleFS.Chained
