import SimpleFS.Chained.Catalog
import SimpleFS.Chained.OwnRange

/-! The runs of the C implementation as runs of its store: what each request makes of the
directory. -/
namespace SimpleFS.Chained
open FiniteMap Function Runs

namespace DirEntry

variable (e : DirEntry)

theorem fileSize_setFirstBlock (b : ℕ) : (e.setFirstBlock b).fileSize = e.fileSize :=
  Vector.readLE_copyAt_of_disjoint _ _ (by decide)

theorem fileSize_setBlockCount (n : ℕ) : (e.setBlockCount n).fileSize = e.fileSize :=
  Vector.readLE_copyAt_of_disjoint _ _ (by decide)

theorem fileSize_setMtime (t : Int64) : (e.setMtime t).fileSize = e.fileSize :=
  Vector.readLE_copyAt_of_disjoint _ _ (by decide)

theorem fileSize_setFileSize (n : ℕ) : (e.setFileSize n).fileSize = n % 256 ^ 4 :=
  Vector.readLE_copyAt_self _ _ (by decide)

theorem mtime_setMtime (t : Int64) : (e.setMtime t).mtime = t := by
  unfold mtime setMtime
  rw [Vector.readLE_copyAt_self _ _ (by decide), Vector.u64_ofNat_leValue]
  rfl

theorem file_blank (name : List UInt8) (now : Int64) :
    (((((e.setName name).setFirstBlock 0).setBlockCount 0).setFileSize 0).setMtime now).file =
      ⟨0, now⟩ := by
  rw [file, mtime_setMtime, fileSize_setMtime, fileSize_setFileSize, Nat.zero_mod]

/-- A name that changes with the other fields fills its field. -/
theorem length_name_of_ne {e e' : DirEntry} (he : e.Ended) (hsame : e.SameName e')
    (hne : e'.name ≠ e.name) : e.name.length = filenameLen := by
  have hle := ended_iff.mp he
  by_contra hlt
  refine hne (name_congr fun k hk => hsame k ?_)
  omega

end DirEntry

section fileSize

variable {s s' : State} {e e' : DirEntry}

theorem growLoop_fileSize {n : ℕ} : ∀ {s : State} {e : DirEntry} {last : Cursor},
    growLoop s e last n = pure (some e', s') → e'.fileSize = e.fileSize := by
  induction n with
  | zero =>
    intro s e last hg
    simp only [growLoop, Call.pure_inj, Prod.mk.injEq, Option.some.injEq] at hg
    rw [hg.1]
  | succ n ih =>
    intro s e last hg
    unfold growLoop at hg
    obtain ⟨⟨new, s₁⟩, -, hg⟩ := Call.bind_eq_pure.mp hg
    by_cases hz : new = 0
    · simp only [if_pos hz, Call.pure_inj, Prod.mk.injEq] at hg
      exact absurd hg.1.symm (Option.some_ne_none _)
    simp only [if_neg hz] at hg
    by_cases hfirst : e.firstBlock = 0
    · simp only [if_pos hfirst] at hg
      rw [ih hg, DirEntry.fileSize_setBlockCount, DirEntry.fileSize_setFirstBlock]
    · simp only [if_neg hfirst] at hg
      rw [ih hg, DirEntry.fileSize_setBlockCount]

theorem shrink_fileSize {required : ℕ} (h : shrink s e required = pure (e', s')) :
    e'.fileSize = e.fileSize := by
  have hloop : ∀ (i : DirEntry × State × ℕ) r,
      State.freeLoop (fun e => e.setBlockCount (e.blockCount + (2 ^ 16 - 1))) i.1 i.2.1 i.2.2 =
        pure r → r.1.fileSize = i.1.fileSize := by
    apply freeLoop_induct
    intro loop hloop i r hr
    split_ifs at hr
    · rw [Call.pure_inj] at hr
      rw [← hr]
    · obtain ⟨blockData, -, hr⟩ := Call.bind_eq_pure.mp hr
      have hsize := hloop (i.1.setBlockCount (i.1.blockCount + (2 ^ 16 - 1)), freeBlock i.2.1 i.2.2,
        nextBlockNo blockData) r hr
      exact hsize.trans (i.1.fileSize_setBlockCount _)
  unfold shrink at h
  obtain ⟨keep, -, h⟩ := Call.bind_eq_pure.mp h
  obtain ⟨blockData, -, h⟩ := Call.bind_eq_pure.mp h
  exact hloop (e, _, _) (e', s') h

/-- Fitting the blocks leaves the size on record. -/
theorem resize_fileSize {required : ℕ} (h : resize s e required = pure (some e', s')) :
    e'.fileSize = e.fileSize := by
  unfold resize at h
  split_ifs at h
  · unfold grow at h
    dsimp only at h
    split_ifs at h
    · exact growLoop_fileSize h
    · obtain ⟨blockData, -, h⟩ := Call.bind_eq_pure.mp h
      obtain ⟨last, -, h⟩ := Call.bind_eq_pure.mp h
      exact growLoop_fileSize h
  · obtain ⟨⟨e₁, s₁⟩, hs, h⟩ := Call.bind_eq_pure.mp h
    simp only [Call.pure_inj, Prod.mk.injEq, Option.some.injEq] at h
    rw [← h.1, shrink_fileSize hs]
  · simp only [Call.pure_inj, Prod.mk.injEq, Option.some.injEq] at h
    rw [h.1]

end fileSize

namespace Guarded

variable {s s' : State} {dir : List ℕ} {away : ℕ → Prop} {t t' : FlatStore} {b i : ℕ}

theorem cataloged (h : Guarded s dir away) (hsized : s.disk.Sized)
    (ht : Indexed (placed s.disk dir) t) : Cataloged s t := ⟨hsized, dir, away, h, ht⟩

/-- One entry of the directory is stored. -/
theorem stored (h : Guarded s dir away) (hb : b ∈ dir) (hi : i < dirEntriesPerBlock) {e : DirEntry}
    (he : e.Ended) (hfile : e.Used → away e.firstBlock)
    (hsized : (s.disk.writeBlock b (setDirAt (s.disk.block b) i e)).Sized)
    (ht : Indexed (update (placed s.disk dir) (b, i) (if e.Used then some (e.name, e.file) else none))
      t') : Cataloged ⟨s.sb, s.disk.writeBlock b (setDirAt (s.disk.block b) i e)⟩ t' := by
  refine (h.put hi he hfile).cataloged hsized ?_
  rw [placed_setDirAt hb hi]
  exact ht

theorem placed_within (h : Guarded s dir away) (hw : Within away s s') :
    placed s'.disk dir = placed s.disk dir :=
  placed_congr fun b hb => hw.block b (h.apart b hb)

end Guarded

namespace Cataloged

variable {s s' : State} {t : FlatStore} {path : Path} {now : Int64} {r : ℤ}

theorem simplefsUnlink (h : Cataloged s t) (hsized : s'.disk.Sized)
    (hu : Chained.simplefsUnlink s path = pure (r, s')) :
    ∃ t', FlatStore.Answers t now (.unlink path) r t' ∧ Cataloged s' t' := by
  unfold Chained.simplefsUnlink at hu
  rcases h.findEntry path with ⟨hfind, hnone⟩ | ⟨e, b, hfind, hsome⟩
  · rw [hfind, pure_bind] at hu
    simp only [Call.pure_inj, Prod.mk.injEq] at hu
    obtain ⟨rfl, rfl⟩ := hu
    exact ⟨t, .unlinked_missing hnone, h⟩
  rw [hfind, pure_bind] at hu
  obtain ⟨⟨_, s₁⟩, hfree, hu⟩ := Call.bind_eq_pure.mp hu
  obtain ⟨blockData, hread, hu⟩ := Call.bind_eq_pure.mp hu
  obtain rfl := readBlock_eq_pure hread
  simp only [Call.pure_inj, Prod.mk.injEq] at hu
  obtain ⟨rfl, rfl⟩ := hu
  obtain ⟨dir, away, hg, hplaced⟩ := h.shown
  obtain ⟨hb, i, hi, hname, he, hpath, hused⟩ := hg.findEntry hfind
  have haway : away e.firstBlock := he ▸ hg.files b hb i hi (he ▸ hused)
  have hw := hg.clear.freeLoop haway e.firstBlock_lt hfree
  have hstore : storeEntry (s₁.disk.block b) e.name ⟨Vector.zeros dirEntrySize⟩ =
      setDirAt (s₁.disk.block b) i ⟨Vector.zeros dirEntrySize⟩ := by
    unfold storeEntry
    simp only [hw.block b (hg.apart b hb), hpath, hname]
  have hblank : ¬ DirEntry.Used ⟨Vector.zeros dirEntrySize⟩ := fun hu => hu (Vector.byteAt_zeros 0)
  rw [hstore] at hsized ⊢
  refine ⟨_, .unlinked (by rw [hsome]; exact Option.some_ne_none _), ?_⟩
  refine (hg.within hw).stored hb hi (DirEntry.ended_of_not_used hblank)
    (fun hu => absurd hu hblank) hsized ?_
  rw [if_neg hblank, hg.placed_within hw]
  exact hplaced.clear (placed_eq_some.mpr ⟨hb, hi, he ▸ hused, he ▸ hpath, rfl⟩)

theorem simplefsWrite (h : Cataloged s t) (hsized : s'.disk.Sized) {offset : ℕ}
    {data : List UInt8} (hrange : offset + data.length + pageSize ≤ 2 ^ 64)
    (hw : Chained.simplefsWrite s now path offset data = pure (r, s')) :
    ∃ t', FlatStore.Answers t now (.write path offset data) r t' ∧ Cataloged s' t' := by
  unfold Chained.simplefsWrite at hw
  rcases h.findEntry path with ⟨hfind, hnone⟩ | ⟨e, b, hfind, hsome⟩
  · rw [hfind, pure_bind] at hw
    simp only [Call.pure_inj, Prod.mk.injEq] at hw
    obtain ⟨rfl, rfl⟩ := hw
    exact ⟨t, .written_missing hnone, h⟩
  have hne : t path.name ≠ none := by
    rw [hsome]
    exact Option.some_ne_none _
  rw [hfind, pure_bind] at hw
  dsimp only at hw
  have hreq : requiredBlocks offset data.length > maxFileBlocks ↔
      maxFileBlocks * pageSize < offset + data.length := by
    unfold requiredBlocks
    simp only [maxFileBlocks, pageSize, blockSize] at hrange ⊢
    omega
  by_cases hbig : requiredBlocks offset data.length > maxFileBlocks
  · simp only [if_pos hbig, Call.pure_inj, Prod.mk.injEq] at hw
    obtain ⟨rfl, rfl⟩ := hw
    exact ⟨t, .written_tooBig hne (hreq.mp hbig), h⟩
  rw [if_neg hbig] at hw
  have hlen : offset + data.length ≤ maxFileBlocks * pageSize := Nat.le_of_not_lt fun hlt =>
    hbig (hreq.mpr hlt)
  obtain ⟨⟨fitted, s₁⟩, hresize, hw⟩ := Call.bind_eq_pure.mp hw
  obtain ⟨dir, away, hg, hplaced⟩ := h.shown
  obtain ⟨hb, i, hi, hname, he, hpath, hused⟩ := hg.findEntry hfind
  have haway : away e.firstBlock := he ▸ hg.files b hb i hi (he ▸ hused)
  obtain ⟨hw₁, hfitted⟩ := hg.clear.resize haway hresize
  cases fitted with
  | none =>
    simp only [Call.pure_inj, Prod.mk.injEq] at hw
    obtain ⟨rfl, rfl⟩ := hw
    refine ⟨t, .written_noSpace hne hlen, (hg.within hw₁).cataloged hsized ?_⟩
    rw [hg.placed_within hw₁]
    exact hplaced
  | some e' =>
    obtain ⟨haway', hsame⟩ := hfitted e' rfl
    obtain ⟨c, hskip, hw⟩ := Call.bind_eq_pure.mp hw
    obtain ⟨s₂, hwrite, hw⟩ := Call.bind_eq_pure.mp hw
    obtain ⟨blockData, hread, hw⟩ := Call.bind_eq_pure.mp hw
    obtain rfl := readBlock_eq_pure hread
    have hfileEnd : (offset + data.length) % 2 ^ 64 = offset + data.length := by
      simp only [maxFileBlocks, pageSize, blockSize] at hlen
      exact Nat.mod_eq_of_lt (by omega)
    simp only [Call.pure_inj, Prod.mk.injEq, hfileEnd] at hw
    obtain ⟨rfl, rfl⟩ := hw
    have hw₂ := hw₁.trans (hw₁.clear.writeLoop (hw₁.clear.skipLoop haway' hskip)
      (Nat.mod_lt offset (by decide)).le hwrite)
    have hg₂ := hg.within hw₂
    have hblock := hw₂.block b (hg.apart b hb)
    have hfields : e.SameName (e'.written now (offset + data.length)) :=
      DirEntry.sameName_setFields _ _ _ hsame
    have hsmall : offset + data.length < 2 ^ 32 := by
      simp only [maxFileBlocks, pageSize, blockSize] at hlen
      omega
    have hfile : (e'.written now (offset + data.length)).file =
        ⟨max e.fileSize (offset + data.length), now⟩ := by
      rw [DirEntry.file, DirEntry.fileSize_written _ _ _ hsmall, resize_fileSize hresize,
        DirEntry.written, DirEntry.mtime_setMtime]
    rw [← DirEntry.firstBlock_written e' now (offset + data.length)] at haway'
    change (s₂.disk.writeBlock b (storeEntry (s₂.disk.block b)
      (e'.written now (offset + data.length)).name (e'.written now _))).Sized at hsized
    change ∃ t', _ ∧ Cataloged ⟨s₂.sb, s₂.disk.writeBlock b (storeEntry (s₂.disk.block b)
      (e'.written now (offset + data.length)).name (e'.written now _))⟩ t'
    generalize e'.written now (offset + data.length) = stored at hfields hfile haway' hsized ⊢
    have hwas : placed s.disk dir (b, i) = some (path.name, e.file) :=
      placed_eq_some.mpr ⟨hb, hi, he ▸ hused, he ▸ hpath, by rw [he]⟩
    have hshort : path.name.length ≤ filenameLen := by
      rw [← hpath, he]
      exact DirEntry.ended_iff.mp (hg.ended b hb i hi)
    have hfields' : (dirAt (s₂.disk.block b) i).SameName stored := by
      rw [hblock, ← he]
      exact hfields
    have hname' : findName (s₂.disk.block b) path.name = some i := by
      rw [hblock, hname]
    rcases storeEntry_eq (hg₂.ended b hb) hname' hfields' with ⟨heq, hstore⟩ | ⟨heq, hstore⟩
    · rw [hstore] at hsized ⊢
      have hstored : stored.Used := by
        rw [DirEntry.used_iff, heq, ← hpath, ← DirEntry.used_iff]
        exact hused
      refine ⟨_, .written hsome hlen, hg₂.stored hb hi ?_ (fun _ => haway') hsized ?_⟩
      · rw [DirEntry.ended_iff, heq]
        exact hshort
      · rw [if_pos hstored, heq, hfile, hg.placed_within hw₂]
        exact hplaced.put (Or.inr ⟨_, hwas⟩)
    · rw [hstore] at hsized ⊢
      have hfull : path.name.length = filenameLen := by
        rw [← hpath]
        exact DirEntry.length_name_of_ne (he ▸ hg.ended b hb i hi) hfields (by rwa [hpath])
      have hsameBlock : ∀ x, (s₂.disk.writeBlock b (s₂.disk.block b)).block x = s₂.disk.block x := by
        intro x
        rw [Disk.block_writeBlock]
        split_ifs with hx
        · rw [hx]
        · rfl
      refine ⟨t, .written_lost hsome hlen hfull, (hg₂.of_block_eq hsameBlock).cataloged hsized ?_⟩
      rw [placed_congr fun x _ => hsameBlock x, hg.placed_within hw₂]
      exact hplaced

end Cataloged

/-- A directory block has an entry that is not in use. -/
def State.HasSlot (s : State) : Prop :=
  ∃ dir, Chain (nextOf s.disk) 0 s.sb.rootDirBlock dir ∧
    ∃ b ∈ dir, findFree (s.disk.block b) ≠ none

section Requests

variable {s s' : State} {dir : List ℕ} {away : ℕ → Prop} {t : FlatStore} {path : Path} {now : Int64}
  {r : ℤ}

/-- The new entry goes to a place that is not in use. -/
theorem indexed_create {d : Disk} {dir : List ℕ} (h : Indexed (placed d dir) t)
    (hnone : t path.name = none) (hshort : Short path) {b i : ℕ} {was e : DirEntry}
    (hfree : ¬ (dirAt (d.block b) i).Used)
    (he : ((((was.setName path.name).setFirstBlock 0).setBlockCount 0).setFileSize 0).setMtime now =
      e) :
    Indexed (update (placed d dir) (b, i) (if e.Used then some (e.name, e.file) else none))
      (update t path.name (some ⟨0, now⟩)) := by
  have hname : e.name = path.name := he ▸ DirEntry.name_setName _ hshort now
  have hfile : e.file = ⟨0, now⟩ := he ▸ DirEntry.file_blank _ _ now
  have hused : e.Used := by
    rw [DirEntry.used_iff, hname]
    exact path.name_ne_nil hshort.1
  rw [if_pos hused, hname, hfile]
  exact h.put (Or.inl ⟨if_neg fun hc => hfree hc.2.2, hnone⟩)

theorem Guarded.created (h : Guarded s dir away) (hplaced : Indexed (placed s.disk dir) t)
    (hnone : t path.name = none) (hshort : Short path) {b i : ℕ} (hb : b ∈ dir)
    (hfree : findFree (s.disk.block b) = some i) {e : DirEntry}
    (he : (((((dirAt (s.disk.block b) i).setName path.name).setFirstBlock 0).setBlockCount
      0).setFileSize 0).setMtime now = e)
    (hsized : (s.disk.writeBlock b (setDirAt (s.disk.block b) i e)).Sized) :
    Cataloged ⟨s.sb, s.disk.writeBlock b (setDirAt (s.disk.block b) i e)⟩
      (update t path.name (some ⟨0, now⟩)) := by
  obtain ⟨hi, hunused⟩ := findFree_eq_some hfree
  obtain ⟨hfirst, -, hended⟩ := DirEntry.blank_file _ path.name now he
  refine h.stored hb hi hended (fun _ => ?_) hsized (indexed_create hplaced hnone hshort hunused he)
  rw [hfirst]
  exact h.clear.zero

/-- The new entry goes to a new directory block. -/
theorem Parted.created {held : Owner → List ℕ} (hp : Parted s held none)
    (hplaced : Indexed (placed s.disk (held .dir)) t) (hnone : t path.name = none)
    (hshort : Short path) {new last : ℕ} {pre : List ℕ} {s₁ : State}
    (ha : Chained.allocateBlock s = pure (new, s₁)) (hnew : new ≠ 0) (hdir : held .dir = pre ++ [last])
    {e : DirEntry}
    (he : (((((dirAt (Vector.zeros blockSize) 0).setName path.name).setFirstBlock 0).setBlockCount
      0).setFileSize 0).setMtime now = e) {d : Disk}
    (hd : (s₁.disk.writeBlock last (setNextBlockNo (s.disk.block last) new)).writeBlock new
      (setDirAt (Vector.zeros blockSize) 0 e) = d) :
    ∃ dir, Chain (nextOf d) 0 s₁.sb.rootDirBlock dir ∧
      Indexed (placed d dir) (update t path.name (some ⟨0, now⟩)) := by
  rcases hp.allocateBlock ha with ⟨hz, -, -⟩ | ⟨rest, hfree, hq, -, hblocks⟩
  · exact absurd hz hnew
  have hlast : last ∈ held .dir := by
    rw [hdir]
    exact List.mem_append_right _ List.mem_cons_self
  have hnewdir : new ∉ held .dir := fun hm =>
    hp.ne_of_mem (o := .free) (p := .dir) (by decide) (by rw [hfree]; exact List.mem_cons_self) hm rfl
  have hne : new ≠ last := fun heq => hnewdir (heq ▸ hlast)
  -- The directory with the new block, before the entry is in it.
  obtain ⟨d₀, hd₀⟩ : ∃ d₀, (s₁.disk.writeBlock last (setNextBlockNo (s.disk.block last)
    new)).writeBlock new (Vector.zeros blockSize) = d₀ := ⟨_, rfl⟩
  have hlinked : d₀.block last = setNextBlockNo (s.disk.block last) new := by
    rw [← hd₀, Disk.block_writeBlock_of_ne _ _ hne.symm, Disk.block_writeBlock_self]
  have hblank : d₀.block new = Vector.zeros blockSize := by
    rw [← hd₀, Disk.block_writeBlock_self]
  have hsame : ∀ b, b ≠ last → b ≠ new → d₀.block b = s₁.disk.block b := by
    intro b hbl hbn
    rw [← hd₀, Disk.block_writeBlock_of_ne _ _ hbn, Disk.block_writeBlock_of_ne _ _ hbl]
  have hchain := (hq.appendDir (give_right ..) hdir
    (by rw [hlinked, hblocks last (hp.ne_zero hlast)]) hblank hsame).dir
  rw [give_right] at hchain
  have hindexed : Indexed (placed d₀ (held .dir ++ [new])) t := by
    rw [placed_append (d := s.disk) ?_ hblank hnewdir]
    · exact hplaced
    intro b hb i hi
    by_cases hbl : b = last
    · rw [hbl, hlinked, dirAt_setNextBlockNo _ _ hi]
    · have hbn : b ≠ new := fun heq => hnewdir (heq ▸ hb)
      rw [hsame b hbl hbn, hblocks b (hp.ne_zero hb)]
  have hunused : ¬ (dirAt (d₀.block new) 0).Used := by
    rw [hblank]
    exact fun hu => hu (by rw [byteAt_dirAt _ _ (by decide)]; exact Vector.byteAt_zeros _)
  have hblock : ∀ b, d.block b = (d₀.writeBlock new (setDirAt (d₀.block new) 0 e)).block b := by
    intro b
    rw [hblank, ← hd, ← hd₀]
    simp only [Disk.block_writeBlock]
    split_ifs <;> rfl
  have hnext : nextOf d = nextOf d₀ := by
    rw [← nextOf_setDirAt (d := d₀) (b := new) (show 0 < dirEntriesPerBlock by decide) e]
    exact funext fun b => congrArg nextBlockNo (hblock b)
  refine ⟨held .dir ++ [new], ?_, ?_⟩
  · rw [hnext]
    exact hchain
  · rw [placed_congr fun b _ => hblock b, placed_setDirAt (by simp) (by decide)]
    exact indexed_create hindexed hnone hshort hunused he

theorem Cataloged.simplefsCreate (h : Cataloged s t) (hsized : s'.disk.Sized)
    (hroot : path.bytes ≠ [0x2F]) (hroom : s.HasSlot ∨ Sound s)
    (hc : Chained.simplefsCreate s now path = pure (r, s')) :
    ∃ t', FlatStore.Answers t now (.create path) r t' ∧ Cataloged s' t' := by
  have hwhole := hc
  unfold Chained.simplefsCreate at hc
  split_ifs at hc with hlong
  · simp only [Call.pure_inj, Prod.mk.injEq] at hc
    obtain ⟨rfl, rfl⟩ := hc
    exact ⟨t, .created_long hlong, h⟩
  have hlen : path.name.length ≤ filenameLen := Nat.le_of_not_lt hlong
  have hshort : Short path := ⟨hroot, hlen⟩
  rcases h.findEntry path with ⟨hfind, hnone⟩ | ⟨e, b, hfind, hsome⟩
  swap
  · rw [hfind, pure_bind] at hc
    simp only [Call.pure_inj, Prod.mk.injEq] at hc
    obtain ⟨rfl, rfl⟩ := hc
    exact ⟨t, .created_exists (by rw [hsome]; exact Option.some_ne_none _), h⟩
  rw [hfind, pure_bind] at hc
  obtain ⟨⟨slot, s₁⟩, hslot, hc⟩ := Call.bind_eq_pure.mp hc
  obtain ⟨dir, away, hg, hplaced⟩ := h.shown
  rcases hroom with ⟨dir', hchain, hroom⟩ | hsound
  · obtain rfl := hchain.unique hg.chain
    obtain ⟨b, hb, i, hfree, hfound⟩ := slotLoop_found h.sized hg.chain hg.inside hroom
    have heq := Call.pure_inj.mp (hslot.symm.trans hfound)
    simp only [Prod.mk.injEq] at heq
    obtain ⟨rfl, rfl⟩ := heq
    simp only [Call.pure_inj, Prod.mk.injEq] at hc
    obtain ⟨rfl, rfl⟩ := hc
    exact ⟨_, .created hlen hnone, hg.created hplaced hnone hshort hb hfree rfl hsized⟩
  · obtain ⟨held, hp⟩ := hsound
    obtain rfl := hp.dir.unique hg.chain
    cases hp.slotLoop (List.nil_append _).symm hp.dir hslot with
    | none =>
      simp only [Call.pure_inj, Prod.mk.injEq] at hc
      obtain ⟨rfl, rfl⟩ := hc
      exact ⟨t, .created_noSpace hlen hnone, h⟩
    | @found b i hb hfree =>
      simp only [Call.pure_inj, Prod.mk.injEq] at hc
      obtain ⟨rfl, rfl⟩ := hc
      exact ⟨_, .created hlen hnone, hg.created hplaced hnone hshort hb hfree rfl hsized⟩
    | @added new s₂ pre last ha hnew hdir =>
      have hsound' := Sound.simplefsCreate ⟨held, hp⟩ hwhole
      simp only [Call.pure_inj, Prod.mk.injEq] at hc
      obtain ⟨rfl, rfl⟩ := hc
      obtain ⟨dir', hchain, hshown⟩ :=
        hp.created hplaced hnone hshort ha hnew hdir rfl rfl
      exact ⟨_, .created hlen hnone, .of_sound hsound' hsized hchain hshown⟩

end Requests

/-- A request as the kernel sends it, that returns. A file may be joined to the free list, but then no
block of it becomes one of the directory. -/
structure FlatSteps (s : State) (e : Event) (s' : State) : Prop where
  returns : Returns s e s'
  named : ∀ path, e.request = .create path → path.bytes ≠ [0x2F]
  range : ∀ path offset data, e.request = .write path offset data →
    offset + data.length + pageSize ≤ 2 ^ 64
  room : ∀ path, e.request = .create path → s.HasSlot ∨ Sound s

/-- One request is one step of the store. -/
theorem FlatSteps.store {s s' : State} {e : Event} {t : FlatStore} (h : FlatSteps s e s')
    (hs : Cataloged s t) (hsync : Synced s) :
    ∃ t', t.Steps e t' ∧ Cataloged s' t' ∧ Synced s' := by
  have hsync' := hsync.handle h.returns
  obtain ⟨request, now, result⟩ := e
  cases request with
  | create path =>
    obtain ⟨t', ht, hs'⟩ := hs.simplefsCreate hsync'.sized (h.named path rfl) (h.room path rfl)
      h.returns
    exact ⟨t', ht, hs', hsync'⟩
  | write path offset data =>
    obtain ⟨t', ht, hs'⟩ := hs.simplefsWrite hsync'.sized (h.range path offset data rfl) h.returns
    exact ⟨t', ht, hs', hsync'⟩
  | unlink path =>
    obtain ⟨t', ht, hs'⟩ := hs.simplefsUnlink hsync'.sized h.returns
    exact ⟨t', ht, hs', hsync'⟩

/-- The directory of a new image is one block without files. -/
theorem Formatted.chain_dir {s : State} (h : Formatted s) :
    Chain (nextOf s.disk) 0 s.sb.rootDirBlock [1] := by
  rw [h.root]
  refine .cons (by decide) ?_
  rw [h.nextOf_root]
  exact .nil

theorem Formatted.cataloged {s : State} (h : Formatted s) (hsized : s.disk.Sized) :
    Cataloged s fun _ => none := by
  refine .of_sound h.sound hsized h.chain_dir ?_
  have hnone : placed s.disk [1] = fun _ => none := by
    funext p
    refine if_neg fun hp => ?_
    obtain ⟨hmem, -, hused⟩ := hp
    rw [List.mem_singleton.mp hmem] at hused
    exact h.not_used _ hused
  rw [hnone]
  exact .empty

end SimpleFS.Chained
