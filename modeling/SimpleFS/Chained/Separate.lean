import SimpleFS.Chained.FirstWrite
import SimpleFS.Foundation.Runs

/-! Which runs keep the chains of the image separate. -/
namespace SimpleFS.Chained
open Runs

/-- The free list, the chain of the root directory, and the chain of the file of entry `i` in
directory block `b`. -/
structure Chains where
  free : List ℕ
  dir : List ℕ
  file : ℕ → ℕ → List ℕ

/-- Entry `i` of directory block `b` is a file. -/
def IsFile (s : State) (c : Chains) (b i : ℕ) : Prop :=
  b ∈ c.dir ∧ i < dirEntriesPerBlock ∧ (dirAt (s.disk.block b) i).Used

/-- The chains of a state end, have the lengths on record, and share no block. -/
structure Separate (s : State) (c : Chains) : Prop where
  free : Chain (nextOf s.disk) 0 s.sb.firstFreeBlock c.free
  dir : Chain (nextOf s.disk) 0 s.sb.rootDirBlock c.dir
  file : ∀ b i, IsFile s c b i →
    Chain (nextOf s.disk) 0 (dirAt (s.disk.block b) i).firstBlock (c.file b i)
  free_length : c.free.length = s.sb.freeBlocks.toNat
  file_length : ∀ b i, IsFile s c b i →
    (c.file b i).length = (dirAt (s.disk.block b) i).blockCount
  free_dir : c.free.Disjoint c.dir
  free_file : ∀ b i, IsFile s c b i → c.free.Disjoint (c.file b i)
  dir_file : ∀ b i, IsFile s c b i → c.dir.Disjoint (c.file b i)
  file_file : ∀ b i b' i', IsFile s c b i → IsFile s c b' i' → (b, i) ≠ (b', i') →
    (c.file b i).Disjoint (c.file b' i')

theorem Sound.separate {s : State} (h : Sound s) : ∃ c, Separate s c := by
  obtain ⟨held, hp⟩ := h
  have hdisj : ∀ o p, o ≠ p → (held o).Disjoint (held p) := fun o p hop _ hx hy =>
    hp.ne_of_mem hop hx hy rfl
  refine ⟨⟨held .free, held .dir, fun b i => held (.file b i)⟩, ?_⟩
  exact {
    free := hp.free
    dir := hp.dir
    file := fun b i hf => (hp.file b hf.1 i hf.2.1 (by simp) hf.2.2).1
    free_length := hp.counted
    file_length := fun b i hf => (hp.file b hf.1 i hf.2.1 (by simp) hf.2.2).2
    free_dir := hdisj _ _ (by decide)
    free_file := fun b i _ => hdisj _ _ (by simp)
    dir_file := fun b i _ => hdisj _ _ (by simp)
    file_file := fun b i b' i' _ _ hne => hdisj _ _ fun heq => hne <| by
      simp only [Owner.file.injEq] at heq
      rw [heq.1, heq.2] }

/-- A request that leaves no file joined to the free list. -/
def Fits (s : State) : Request → Prop
  | .write path offset data => WriteFits s path offset data.length
  | _ => True

/-- A request with the clock and its result. -/
structure Event where
  request : Request
  now : Int64
  result : ℤ

/-- A request that fits and returns. -/
def Steps (s : State) (e : Event) (s' : State) : Prop :=
  Fits s e.request ∧ handle s e.now e.request = pure (e.result, s')

theorem Steps.sound {s s' : State} {e : Event} (h : Steps s e s') (hs : Sound s) : Sound s' := by
  obtain ⟨request, now, result⟩ := e
  obtain ⟨hfits, h⟩ := h
  cases request with
  | create path => exact hs.simplefsCreate h
  | write path offset data => exact hs.simplefsWrite hfits h
  | unlink path => exact hs.simplefsUnlink h

/-- As long as every write fits, the free list, the root directory and the files keep their blocks
apart, and the counts on record are right. -/
theorem separate_of_run {d : Disk} {start s : State} (hf : formatDisk d = pure start)
    (h : Run Steps (fun _ _ _ g => g) start () s ()) : ∃ c, Separate s c := by
  have hs : Sound s := h.invariant_state (formatDisk_formatted hf).sound fun _ _ _ hp hstep =>
    hstep.sound hp
  exact hs.separate

/-- The image file that `init_disk` has just created. -/
def newImage : Disk := (Disk.ofImage []).truncate diskSize

theorem sized_newImage : newImage.Sized := rfl

/-- The path of the file `a`. -/
def pathA : Path := ⟨[0x2F, 97], by decide, by decide, by decide⟩

/-- The path of a file whose name fills the name field. -/
def pathFull : Path :=
  ⟨[0x2F, 97, 98, 99, 100, 101, 102, 103, 104, 105, 106], by decide, by decide, by decide⟩

theorem exists_firstWrite {path : Path} (hp : Short path) (x : UInt8) :
    ∃ start s₁ s e e', formatDisk newImage = pure start ∧
      simplefsCreate start 0 path = pure (0, s₁) ∧ OneFile s₁ path e ∧
      simplefsWrite s₁ 0 path 0 [x] = pure (1, s) ∧ e'.firstBlock = 2 ∧ e.SameName e' ∧
      s.sb.firstFreeBlock = 3 ∧ s.sb.rootDirBlock = 1 ∧
      s.disk.block 1 = storeEntry (s₁.disk.block 1) e'.name e' ∧
      nextOf s.disk 1 = 0 ∧ nextOf s.disk 2 = 3 := by
  obtain ⟨start, hstart, hsized⟩ := exists_formatDisk sized_newImage
  have hf := formatDisk_formatted hstart
  obtain ⟨e, hname, hfirst, hcount, hc⟩ := hf.create hsized hp 0
  have hone := hf.oneFile hsized hname hfirst hcount
  obtain ⟨e', s, hw, hrest⟩ := hone.write hp.not_root x 0
  exact ⟨start, _, s, e, e', hstart, hc, hone, hw, hrest⟩

/-- A file with a name of full length is created and written. -/
theorem separate_pathFull :
    ∃ start s₁ s, formatDisk newImage = pure start ∧
      handle start 0 (.create pathFull) = pure (0, s₁) ∧
      handle s₁ 0 (.write pathFull 0 [65]) = pure (1, s) ∧ ∃ c, Separate s c := by
  have hp : Short pathFull := ⟨by decide, by decide⟩
  obtain ⟨start, s₁, s, e, e', hstart, hc, hone, hw, -⟩ := exists_firstWrite hp 65
  have h₁ : Steps start ⟨.create pathFull, 0, 0⟩ s₁ := ⟨trivial, hc⟩
  have hfits : WriteFits s₁ pathFull 0 [(65 : UInt8)].length := by
    intro e₁ b hfind _ _
    rw [hone.findEntry_eq hp.not_root] at hfind
    simp only [Call.pure_inj, Option.some.injEq, Prod.mk.injEq] at hfind
    obtain ⟨rfl, rfl⟩ := hfind
    refine Or.inr (Or.inr ⟨hone.firstBlock, Or.inr ⟨by decide, ?_⟩⟩)
    rw [hone.first]
    decide
  have h₂ : Steps s₁ ⟨.write pathFull 0 [65], 0, 1⟩ s := ⟨hfits, hw⟩
  exact ⟨start, s₁, s, hstart, hc, hw,
    separate_of_run hstart (.step _ (.step _ .start h₁) h₂)⟩

/-- One byte written to the file `a` joins it to the free list. -/
theorem not_separate_pathA :
    ∃ start s₁ s, formatDisk newImage = pure start ∧
      handle start 0 (.create pathA) = pure (0, s₁) ∧
      handle s₁ 0 (.write pathA 0 [65]) = pure (1, s) ∧ ¬ ∃ c, Separate s c := by
  have hp : Short pathA := ⟨by decide, by decide⟩
  obtain ⟨start, s₁, s, e, e', hstart, hc, hone, hw, hblock, hsame, hfree, hroot, hdir, hnext1,
    hnext2⟩ := exists_firstWrite hp 65
  refine ⟨start, s₁, s, hstart, hc, hw, fun ⟨c, hsep⟩ => ?_⟩
  have hlen : e.name.length = 1 := by
    rw [hone.name]
    rfl
  have hname : e'.name = e.name := by
    refine DirEntry.name_congr fun k hk => hsame k ?_
    simp only [filenameLen]
    omega
  have hentry : dirAt (s.disk.block 1) 0 = e' := by
    have hsame' : (dirAt (s₁.disk.block 1) 0).SameName e' := hone.entry.symm ▸ hsame
    rcases storeEntry_eq hone.ended hone.findName_eq hsame' with ⟨-, hstore⟩ | ⟨hne, -⟩
    · rw [hdir, hstore, dirAt_setDirAt _ _ (by decide) (by decide), if_pos rfl]
    · exact absurd (hname.trans hone.name) hne
  have hused : e'.Used := by
    rw [DirEntry.used_iff, hname]
    exact fun hnil => absurd hlen (by rw [hnil]; decide)
  have hd := hsep.dir
  rw [hroot] at hd
  have hfile : IsFile s c 1 0 := ⟨hd.head_mem (by decide), by decide, by rwa [hentry]⟩
  have hchain := hsep.file 1 0 hfile
  rw [hentry, hblock] at hchain
  obtain ⟨rest, heq, hrest⟩ := hchain.eq_cons (by decide)
  rw [hnext2] at hrest
  have hf := hsep.free
  rw [hfree] at hf
  refine hsep.free_file 1 0 hfile (hf.head_mem (by decide)) ?_
  rw [heq]
  exact List.mem_cons_of_mem _ (hrest.head_mem (by decide))

end SimpleFS.Chained
