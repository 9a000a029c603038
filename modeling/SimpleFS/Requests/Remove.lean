import SimpleFS.Requests.Consistent

/-! What `unlink` and `rmdir` do: the blocks of the inode are freed, its link count is set to zero
and its entry is taken out of the parent directory. -/
namespace SimpleFS
open Scan Bitmap

/-- An inode copy is as usable as before when its blocks have not changed. -/
theorem Placed.transfer {fs fs' : Fs} {i : Inode} (hp : Placed fs i) (hd : fs'.disk.Sized)
    (hl : Layout fs'.sb) (h : ∀ b ∈ i.refs fs.disk, fs'.disk.block b = fs.disk.block b) :
    Placed fs' i := by
  have hrefs : i.refs fs'.disk = i.refs fs.disk :=
    Inode.refs_congr fun hi => h _ (Inode.indirectBlock_mem_refs hi)
  exact ⟨hd, hl, hp.inodeNo, fun b hb => hp.range b (hrefs ▸ hb), by rw [hrefs]; exact hp.nodup⟩

/-- A step that writes no block at all leaves the content of every inode copy alone. -/
theorem Footprint.block_of_placed {fs fs' : Fs} {recs freed : List ℕ} {i : Inode}
    (hf : Footprint fs fs' recs [] [] freed) (hp : Placed fs i) :
    ∀ b ∈ i.refs fs.disk, fs'.disk.block b = fs.disk.block b := by
  intro b hb
  obtain ⟨hlow, -, hr⟩ := hp.range b hb
  exact hf.block b (by omega) hr (by simp) (by simp)

/-- `e` is the first entry of directory `p` with the name. -/
def Names (d : Disk) (p : ℕ) (name : String) (e : DirEntry) : Prop :=
  ∃ s pre post, (d.inode p).First d name (e, s) pre post

theorem Names.mem_entries {d : Disk} {p : ℕ} {name : String} {e : DirEntry} (h : Names d p name e) :
    e ∈ (d.inode p).entries d := by
  obtain ⟨s, pre, post, hfirst⟩ := h
  exact hfirst.mem_entries

/-- There is one first entry. -/
theorem Names.unique {d : Disk} {p : ℕ} {name : String} {e e' : DirEntry} (h : Names d p name e)
    (h' : Names d p name e') : e = e' := by
  obtain ⟨s, pre, post, hfirst⟩ := h
  obtain ⟨s', pre', post', hfirst'⟩ := h'
  exact congrArg Prod.fst (Option.some.inj (hfirst.find?.symm.trans hfirst'.find?))

theorem Names.named {d : Disk} {p : ℕ} {name : String} {e : DirEntry} (h : Names d p name e) :
    e.named name = true := by
  obtain ⟨s, pre, post, hfirst⟩ := h
  exact hfirst.named

/-- Inode `c` went out of use, and directory `p` lost its first entry `name`. Where `p` is `c`
itself nothing is said about the directory. -/
structure Gone (fs fs' : Fs) (p c : ℕ) (name : String) (now : Int64) (freed : List ℕ) : Prop where
  consistent : Consistent fs'
  footprint : Footprint fs fs' [c, p] (fs.disk.held p) [] freed
  freed : freed ⊆ fs.disk.held c
  unused : ¬ fs'.disk.Live c
  inode : p ≠ c → fs'.disk.inode p = { fs.disk.inode p with mtime := now }
  refs : p ≠ c → (fs'.disk.inode p).refs fs'.disk = (fs.disk.inode p).refs fs.disk
  table : p ≠ c → (fs'.disk.inode p).table fs'.disk =
    SlotTable.clear DirEntry.isEmpty (DirEntry.named name) DirEntry.cleared
      ((fs.disk.inode p).table fs.disk)

theorem Gone.of_footprint {fs fs' : Fs} (hc : Consistent fs) {p c : ℕ} (hp : fs.disk.Live p)
    {name : String} {now : Int64} {freed : List ℕ}
    (hf : Footprint fs fs' [c, p] (fs.disk.held p) [] freed) (hfreed : freed ⊆ fs.disk.held c)
    (hunused : ¬ fs'.disk.Live c)
    (hinode : p ≠ c → fs'.disk.inode p = { fs.disk.inode p with mtime := now })
    (hrefs : p ≠ c → (fs'.disk.inode p).refs fs'.disk = (fs.disk.inode p).refs fs.disk)
    (htable : p ≠ c → (fs'.disk.inode p).table fs'.disk =
      SlotTable.clear DirEntry.isEmpty (DirEntry.named name) DirEntry.cleared
        ((fs.disk.inode p).table fs.disk)) : Gone fs fs' p c name now freed := by
  have hheld : p ≠ c → fs'.disk.held p = fs.disk.held p := by
    intro hne
    have hlive : fs'.disk.Live p := ⟨hp.1, by rw [hinode hne]; exact hp.2⟩
    rw [hlive.held, hp.held, hrefs hne]
  refine ⟨⟨hf.sized, hf.layout, hf.owned hc.owned (fun m hm => ?_) ?_ ?_ ?_ ?_⟩, hf, hfreed, hunused,
    hinode, hrefs, htable⟩
  · simp only [List.mem_cons, List.not_mem_nil, or_false, not_or] at hm
    exact hf.held_eq hc.owned (by simpa using hm) (hc.held_disjoint hm.2 (List.Subset.refl _))
  · intro r hr b hb
    have hrc : r ≠ c := by
      rintro rfl
      rw [Disk.held_of_not_live hunused] at hb
      simp at hb
    have hrp : r = p := by simpa [hrc] using hr
    subst hrp
    rw [hheld hrc] at hb
    exact Or.inl ⟨⟨r, hr, hb⟩, fun hmem =>
      hrc (hc.owned.exclusive.owner_unique hb (hfreed hmem))⟩
  · intro r hr
    by_cases hrc : r = c
    · rw [hrc, Disk.held_of_not_live hunused]
      exact List.nodup_nil
    · have hrp : r = p := by simpa [hrc] using hr
      subst hrp
      rw [hheld hrc]
      exact hc.owned.exclusive.nodup r
  · intro r hr s hs hne b hb hb'
    have hrc : r ≠ c := by
      rintro rfl
      simp [Disk.held_of_not_live hunused] at hb
    have hsc : s ≠ c := by
      rintro rfl
      simp [Disk.held_of_not_live hunused] at hb'
    simp only [List.mem_cons, List.not_mem_nil, or_false] at hr hs
    exact hne ((hr.resolve_left hrc).trans (hs.resolve_left hsc).symm)
  · intro b hb
    exact ⟨c, by simp, hfreed hb⟩

/-- What a call of `unlink` that answers has done. -/
inductive UnlinkOutcome (fs : Fs) (p : ℕ) (name : String) (now : Int64) : Reply → Fs → Prop
  | missing : (fs.disk.inode p).Lacks fs.disk name → UnlinkOutcome fs p name now (.error .ENOENT) fs
  | isDir {e} : Names fs.disk p name e → (fs.disk.inode e.inode.toNat).isDir = true →
      UnlinkOutcome fs p name now (.error .EISDIR) fs
  | gone {fs' e} : Names fs.disk p name e → (fs.disk.inode e.inode.toNat).isDir = false →
      Gone fs fs' p e.inode.toNat name now (fs.disk.held e.inode.toNat) →
      UnlinkOutcome fs p name now .ok fs'

theorem unlink_outcome {fs fs' : Fs} (hc : Consistent fs) {p : ℕ} (hp : fs.disk.Live p)
    (hdir : (fs.disk.inode p).isDir = true) {name : ByteArray} {now : ℕ → Int64} {reply : Reply}
    (hlive : ∀ e ∈ (fs.disk.inode p).entries fs.disk, e.named (Fs.nameOr "" name) = true →
      fs.disk.Live e.inode.toNat)
    (h : fs.unlink p name now = some (reply, fs')) :
    UnlinkOutcome fs p (Fs.nameOr "" name) (now 0) reply fs' := by
  have hplaced := hc.placed hp
  have hno := Consistent.toNat_inodeNo (d := fs.disk) hp.1
  rw [Fs.unlink, Consistent.asU32_of_inodeNo hp.1, hc.readInode hp.1, Option.bind_eq_bind,
    Option.bind_some] at h
  obtain ⟨found, hfind, h⟩ := Option.bind_eq_some_iff.mp h
  cases found with
  | none =>
    simp only [Option.some.injEq, Prod.mk.injEq] at h
    obtain ⟨rfl, rfl⟩ := h
    exact .missing (dirFind_eq_none hplaced.sized hplaced.onDisk hfind)
  | some slot =>
    obtain ⟨e, s⟩ := slot
    obtain ⟨pre, post, hfirst⟩ := dirFind_eq_some hplaced.sized hplaced.onDisk hfind
    have hnames : Names fs.disk p (Fs.nameOr "" name) e := ⟨s, pre, post, hfirst⟩
    have hce := hlive e hfirst.mem_entries hfirst.named
    have hcno := Consistent.toNat_inodeNo (d := fs.disk) hce.1
    dsimp only at h
    rw [hc.readInode hce.1, Option.bind_eq_bind, Option.bind_some] at h
    split_ifs at h with hchild
    · simp only [Option.some.injEq, Prod.mk.injEq] at h
      obtain ⟨rfl, rfl⟩ := h
      exact .isDir hnames hchild
    · have hpc : p ≠ e.inode.toNat := by
        intro heq
        rw [heq] at hdir
        exact hchild hdir
      have hcplaced := hc.placed hce
      have hcused := hc.owned.used hce
      obtain ⟨fs₁, hfree₁, hf₁⟩ := hcplaced.freeDataBlocks fun b hb =>
        hcused b (Inode.mem_refs_of_mem_blocks hb)
      obtain ⟨fs₂, hfree₂, hf₂⟩ := hcplaced.freeRefs hcused hf₁
      rw [hfree₁, Option.bind_eq_bind, Option.bind_some] at h
      dsimp only at h
      rw [hfree₂, Option.bind_eq_bind, Option.bind_some] at h
      dsimp only at h
      let dead : Inode := { fs.disk.inode e.inode.toNat with nlink := 0 }
      have hdead : dead.inodeNo.toNat = e.inode.toNat := hcno
      have hstore : writeInode fs₂.disk fs₂.sb dead = some (fs₂.disk.putInode dead) :=
        hf₂.sized.writeInode hf₂.layout (by rw [hdead]; exact hce.1.recordBlock_lt)
      obtain ⟨d₃, hwrite, h⟩ := Option.bind_eq_some_iff.mp h
      obtain rfl : _ = d₃ := Option.some.inj (hstore.symm.trans hwrite)
      have hput := Footprint.putInode hf₂.sized hf₂.layout (i := dead) (by rw [hdead]; exact hce.1)
      rw [hdead] at hput
      have hf₃ := (hf₂.mono (List.nil_subset _) (List.Subset.refl _)).trans_free hput
        (List.Subset.refl _)
      have hplaced₃ := hplaced.transfer hf₃.sized hf₃.layout (hf₃.block_of_placed hplaced)
      obtain ⟨⟨result, d₄, dir'⟩, hremove, h⟩ := Option.bind_eq_some_iff.mp h
      rcases @dirRemoveEntry_cases ⟨_, fs₂.sb⟩ _ _ hplaced₃ _ _ _ _ hremove with
        ⟨rfl, -⟩ | ⟨rfl, hrem⟩
      · simp at h
      · simp only [Option.some.injEq, Prod.mk.injEq] at h
        obtain ⟨rfl, rfl⟩ := h
        have hrefs₃ : (fs.disk.inode p).refs (fs₂.disk.putInode dead) =
            (fs.disk.inode p).refs fs.disk :=
          Inode.refs_congr fun hi =>
            hf₃.block_of_placed hplaced _ (Inode.indirectBlock_mem_refs hi)
        have htable₃ : (fs.disk.inode p).table (fs₂.disk.putInode dead) =
            (fs.disk.inode p).table fs.disk :=
          congrArg (List.map Prod.fst) (Inode.slots_congr (hf₃.block_of_placed hplaced))
        have hrf := hrem.footprint
        have hrinode := hrem.inode
        rw [hno] at hrf hrinode
        dsimp only at hrf
        rw [hrefs₃, ← hp.held] at hrf
        have hfirst₃ : Footprint fs ⟨fs₂.disk.putInode dead, fs₂.sb⟩ [e.inode.toNat, p]
            (fs.disk.held p) [] _ := hf₃.mono (by simp) (List.nil_subset _)
        have hboth := hfirst₃.trans_free (hrf.mono (by simp) (List.Subset.refl _))
          (List.Subset.refl _)
        simp only [List.append_nil] at hboth
        rw [← hce.held] at hboth
        refine .gone hnames (by simpa using hchild) (.of_footprint hc hp hboth
          (List.Subset.refl _) ?_ (fun _ => ?_) (fun _ => ?_) fun _ => ?_)
        · intro hl
          apply hl.2
          rw [hrf.inode _ hce.1 (by simpa using fun heq => hpc heq.symm), ← hdead,
            Disk.inode_putInode_self]
        · rw [hrinode, hrem.dir_eq]
        · rw [hrinode, hrem.refs, hrefs₃]
        · rw [hrinode, hrem.table, htable₃]
          rfl

/-- What a call of `rmdir` that answers has done. Emptiness is judged by the number of entries. -/
inductive RmdirOutcome (fs : Fs) (p : ℕ) (name : String) (now : Int64) : Reply → Fs → Prop
  | missing : (fs.disk.inode p).Lacks fs.disk name → RmdirOutcome fs p name now (.error .ENOENT) fs
  | notDir {e} : Names fs.disk p name e → (fs.disk.inode e.inode.toNat).isDir = false →
      RmdirOutcome fs p name now (.error .ENOTDIR) fs
  | notEmpty {e} : Names fs.disk p name e →
      2 < ((fs.disk.inode e.inode.toNat).entries fs.disk).length →
      RmdirOutcome fs p name now (.error .ENOTEMPTY) fs
  | gone {fs' e} : Names fs.disk p name e → (fs.disk.inode e.inode.toNat).isDir = true →
      ((fs.disk.inode e.inode.toNat).entries fs.disk).length ≤ 2 →
      Gone fs fs' p e.inode.toNat name now ((fs.disk.inode e.inode.toNat).blocks fs.disk) →
      RmdirOutcome fs p name now .ok fs'

theorem rmdir_outcome {fs fs' : Fs} (hc : Consistent fs) {p : ℕ} (hp : fs.disk.Live p)
    {name : ByteArray} {now : ℕ → Int64} {reply : Reply}
    (hlive : ∀ e ∈ (fs.disk.inode p).entries fs.disk, e.named (Fs.nameOr "" name) = true →
      fs.disk.Live e.inode.toNat)
    (h : fs.rmdir p name now = some (reply, fs')) :
    RmdirOutcome fs p (Fs.nameOr "" name) (now 0) reply fs' := by
  have hplaced := hc.placed hp
  have hno := Consistent.toNat_inodeNo (d := fs.disk) hp.1
  rw [Fs.rmdir, Consistent.asU32_of_inodeNo hp.1, hc.readInode hp.1, Option.bind_eq_bind,
    Option.bind_some] at h
  obtain ⟨found, hfind, h⟩ := Option.bind_eq_some_iff.mp h
  cases found with
  | none =>
    simp only [Option.some.injEq, Prod.mk.injEq] at h
    obtain ⟨rfl, rfl⟩ := h
    exact .missing (dirFind_eq_none hplaced.sized hplaced.onDisk hfind)
  | some slot =>
    obtain ⟨e, s⟩ := slot
    obtain ⟨pre, post, hfirst⟩ := dirFind_eq_some hplaced.sized hplaced.onDisk hfind
    have hnames : Names fs.disk p (Fs.nameOr "" name) e := ⟨s, pre, post, hfirst⟩
    have hce := hlive e hfirst.mem_entries hfirst.named
    have hcno := Consistent.toNat_inodeNo (d := fs.disk) hce.1
    have hcplaced := hc.placed hce
    have hcused := hc.owned.used hce
    dsimp only at h
    rw [hc.readInode hce.1, Option.bind_eq_bind, Option.bind_some] at h
    split_ifs at h with hchild
    · simp only [Option.some.injEq, Prod.mk.injEq] at h
      obtain ⟨rfl, rfl⟩ := h
      exact .notDir hnames (by simpa using hchild)
    · rw [dirLookup_eq hcplaced.sized hcplaced.onDisk, Option.bind_eq_bind, Option.bind_some] at h
      rw [Inode.length_filter_slots] at h
      split_ifs at h with hfull
      · simp only [Option.some.injEq, Prod.mk.injEq] at h
        obtain ⟨rfl, rfl⟩ := h
        exact .notEmpty hnames hfull
      obtain ⟨fs₁, hfree₁, hf₁⟩ := hcplaced.freeDataBlocks fun b hb =>
        hcused b (Inode.mem_refs_of_mem_blocks hb)
      rw [hfree₁, Option.bind_eq_bind, Option.bind_some] at h
      dsimp only at h
      have hplaced₁ := hplaced.transfer hf₁.sized hf₁.layout (hf₁.block_of_placed hplaced)
      obtain ⟨⟨result, d₂, dir'⟩, hremove, h⟩ := Option.bind_eq_some_iff.mp h
      rcases dirRemoveEntry_cases hplaced₁ hremove with ⟨rfl, -⟩ | ⟨rfl, hrem⟩
      · simp at h
      · let dead : Inode := { fs.disk.inode e.inode.toNat with nlink := 0 }
        have hdead : dead.inodeNo.toNat = e.inode.toNat := hcno
        have hrefs₁ : (fs.disk.inode p).refs fs₁.disk = (fs.disk.inode p).refs fs.disk :=
          Inode.refs_congr fun hi =>
            hf₁.block_of_placed hplaced _ (Inode.indirectBlock_mem_refs hi)
        have htable₁ : (fs.disk.inode p).table fs₁.disk = (fs.disk.inode p).table fs.disk :=
          congrArg (List.map Prod.fst) (Inode.slots_congr (hf₁.block_of_placed hplaced))
        have hrf := hrem.footprint
        have hrinode := hrem.inode
        rw [hno] at hrf hrinode
        rw [hrefs₁, ← hp.held] at hrf
        have hstore : writeInode d₂ fs₁.sb dead = some (d₂.putInode dead) :=
          hrf.sized.writeInode hrf.layout (by rw [hdead]; exact hce.1.recordBlock_lt)
        obtain ⟨d₃, hwrite, h⟩ := Option.bind_eq_some_iff.mp h
        obtain rfl : _ = d₃ := Option.some.inj (hstore.symm.trans hwrite)
        simp only [Option.some.injEq, Prod.mk.injEq] at h
        obtain ⟨rfl, rfl⟩ := h
        have hput := Footprint.putInode hrf.sized hrf.layout (i := dead) (by rw [hdead]; exact hce.1)
        rw [hdead] at hput
        have hfirst₁ : Footprint fs fs₁ [e.inode.toNat, p] (fs.disk.held p) [] _ :=
          hf₁.mono (List.nil_subset _) (List.nil_subset _)
        have hall := (hfirst₁.trans_free (hrf.mono (by simp) (List.Subset.refl _))
          (List.Subset.refl _)).trans_free (hput.mono (by simp) (List.Subset.refl _))
          (List.nil_subset _)
        simp only [List.append_nil] at hall
        have hdir : p ≠ e.inode.toNat → (d₂.putInode dead).inode p = dir' := by
          intro hne
          rw [Disk.inode_putInode, hdead, if_neg hne]
          exact hrinode
        have hkeep : ∀ b ∈ dir'.refs d₂, (d₂.putInode dead).block b = d₂.block b := by
          intro b hb
          rw [hrem.refs, hrefs₁] at hb
          refine Disk.block_putInode _ dead fun heq => (hplaced.range b hb).2.2 ⟨_, hce.1, ?_⟩
          rw [heq, hdead]
        refine .gone hnames (by simpa using hchild) (by omega) (.of_footprint hc hp hall ?_ ?_
          (fun hne => ?_) (fun hne => ?_) fun hne => ?_)
        · rw [hce.held]
          exact fun b hb => Inode.mem_refs_of_mem_blocks hb
        · intro hl
          apply hl.2
          rw [← hdead, Disk.inode_putInode_self]
        · rw [hdir hne, hrem.dir_eq]
        · rw [hdir hne, ← hrefs₁, ← hrem.refs]
          exact Inode.refs_congr fun hi => hkeep _ (Inode.indirectBlock_mem_refs hi)
        · rw [hdir hne, ← htable₁]
          exact (congrArg (List.map Prod.fst) (Inode.slots_congr hkeep)).trans hrem.table

end SimpleFS
