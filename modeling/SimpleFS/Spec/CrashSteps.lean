import SimpleFS.Spec.TornStores

/-! Which stores the disk shows between the writes of the directory functions and of the growing of a
file. -/
namespace SimpleFS
open NodeStore Overlay Function Bitmap

section Records

variable {fs fs' : Fs} {new freed : List ℕ} {n : ℕ}

/-- Where no record and no block in use was written, the store is the same. -/
theorem Footprint.node_eq (hf : Footprint fs fs' [] [] new freed) (hc : Consistent fs)
    (hm : fs.disk.AllMapped) : fs'.disk.node = fs.disk.node := by
  funext m
  refine Disk.node_congr (fun hno => hf.inode m hno (by simp)) (fun hn b hb => ?_) (hm m)
  exact (hf.untouched_of_live hc.owned hn (by simp) (by simp)).block b hb

/-- A block that was just taken is written. -/
theorem Footprint.store_new {b : ℕ} (hf : Footprint fs fs' [] [] new []) (hb : b ∈ new)
    (buf : Block) : Footprint fs ⟨fs'.disk.writeBlock b buf, fs'.sb⟩ [] [] new [] := by
  obtain ⟨hlow, hlt, -, hr⟩ := hf.fresh b hb
  have hw := Footprint.writeBlock hf.sized hf.layout buf (Or.inl (by omega)) hlt hr
  have hboth := hf.trans_alloc hw fun c hc => Or.inr (List.mem_singleton.mp hc ▸ hb)
  rwa [List.append_nil] at hboth

/-- A new time stamp is not seen. -/
theorem Restamped.node {j : Inode} (h : Restamped fs fs' (fs.disk.inode n) j) (hn : InodeNo n)
    (hmode : j.mode = (fs.disk.inode n).mode) (hnlink : j.nlink = (fs.disk.inode n).nlink)
    (hsize : j.size = (fs.disk.inode n).size) (hm : (fs.disk.inode n).Mapped fs.disk) :
    fs'.disk.node n = fs.disk.node n := by
  have hinode := h.inode
  rw [Consistent.toNat_inodeNo hn] at hinode
  have hlive : fs'.disk.Live n ↔ fs.disk.Live n := by
    rw [Disk.Live, Disk.Live, hinode, hnlink]
  have hdir : (fs'.disk.inode n).isDir = (fs.disk.inode n).isDir := by
    rw [Inode.isDir, Inode.isDir, hinode, hmode]
  have hentries : (fs'.disk.inode n).entries fs'.disk = (fs.disk.inode n).entries fs.disk := by
    rw [Inode.entries, hinode, h.table, Inode.entries]
  have hcontent : (fs'.disk.inode n).content fs'.disk = (fs.disk.inode n).content fs.disk := by
    rw [hinode, h.content hm]
  unfold Disk.node Inode.names Inode.bytes
  rw [hdir, hentries, hcontent, hinode, hmode, hsize]
  simp only [hlive]

end Records

section Directory

variable {d₀ c d' : Disk} {sb sb' : SuperBlock} {T : FileStore → Prop} {p b : ℕ} {name : String}
  {now : Int64} {r : Except String Unit} {dir' : Inode}

/-- A block of a directory is written, then its record with a new time: the first write alone makes
the change. -/
theorem rewrite_shows (ho : Owned d₀) (hm : d₀.AllMapped) (hp : d₀.Live p) (h : d₀.Above c)
    (hl : Layout sb) (hb : b ∈ (d₀.inode p).blocks d₀) (buf : Block) {j : Inode}
    (hj : SameMap j (d₀.inode p)) (hmode : j.mode = (d₀.inode p).mode)
    (hnlink : j.nlink = (d₀.inode p).nlink) (hsize : j.size = (d₀.inode p).size) (hT : T d₀.node)
    (hT' : T ((c.writeBlock b buf).putInode j).node) :
    c.Trail (Disk.Shows T) ((c.writeBlock b buf).putInode j) := by
  have hheld : b ∈ d₀.held p := hp.held ▸ Inode.mem_refs_of_mem_blocks hb
  obtain ⟨hlow, hlt, -, hr⟩ := ho.range p b hheld
  have hno : j.inodeNo.toNat = p := by
    rw [hj.inodeNo]
    exact Consistent.toNat_inodeNo hp.1
  have hinode : ∀ m, InodeNo m → (c.writeBlock b buf).inode m = d₀.inode m := fun m hmno => by
    rw [c.inode_writeBlock_of_ne buf fun heq => hr ⟨m, hmno, heq⟩, h.inode]
  have hind : (d₀.inode p).indirectBlock ≠ 0 → (c.writeBlock b buf).block
      (d₀.inode p).indirectBlock.toNat = d₀.block (d₀.inode p).indirectBlock.toNat := by
    intro hi
    have hmem := Inode.indirectBlock_mem_refs (d := d₀) hi
    rw [Disk.block_writeBlock_of_ne, h.block_of_refs ho hp _ hmem]
    rintro rfl
    have hnodup := hp.held ▸ ho.exclusive.nodup p
    rw [Inode.refs, if_neg hi] at hnodup
    exact (List.nodup_append.mp hnodup).2.2 _ hb _ (List.mem_singleton.mpr rfl) rfl
  have hsame : (c.writeBlock b buf).node = ((c.writeBlock b buf).putInode j).node := by
    funext m
    by_cases hmp : m = p
    · subst hmp
      have hrefs : (d₀.inode m).refs (c.writeBlock b buf) = d₀.held m := by
        rw [Inode.refs_congr hind, hp.held]
      have hplaced : Placed ⟨c.writeBlock b buf, sb⟩ ((c.writeBlock b buf).inode m) := by
        rw [hinode m hp.1]
        refine ⟨h.sized.writeBlock hlt buf, hl, ?_, fun x hx => ?_, ?_⟩
        · rw [Consistent.toNat_inodeNo hp.1]
          exact hp.1
        · obtain ⟨hlow, hlt, -, hr⟩ := ho.range m x (hrefs ▸ hx)
          exact ⟨hlow, hlt, hr⟩
        · dsimp only
          rw [hrefs]
          exact ho.exclusive.nodup m
      have hmapped : ((c.writeBlock b buf).inode m).Mapped (c.writeBlock b buf) := by
        rw [hinode m hp.1]
        intro k hk
        rw [Inode.ptr_congr hind]
        exact hm m hp k hk
      rw [← hinode m hp.1] at hj hmode hnlink hsize
      exact ((hplaced.restamp hj).2.node hp.1 hmode hnlink hsize hmapped).symm
    · have hkeep : d₀.Live m → ∀ x ∈ (d₀.inode m).refs d₀,
          (c.writeBlock b buf).block x = d₀.block x := by
        intro hmlive x hx
        rw [Disk.block_writeBlock_of_ne, h.block_of_refs ho hmlive x hx]
        rintro rfl
        exact hmp (ho.exclusive.owner_unique (hmlive.held ▸ hx) hheld)
      rw [Disk.node_congr (hinode m) hkeep (hm m), Disk.node_putInode_of_ne ho (hno ▸ hp.1)
        (hno ▸ hmp) (hinode m) hkeep (hm m)]
  have hdata : c.Trail (Disk.Shows T) (c.writeBlock b buf) := by
    refine (Disk.Trail.refl (h.shows ho hm hT)).shows (by omega) hlt buf ?_
    rw [hsame]
    exact hT'
  exact hdata.shows_putInode (hno ▸ hp.1) hT'

/-- A new block is filled before the record of the directory refers to it. -/
theorem dirAddEntry_shows {fs : Fs} (hc : Consistent fs) (hm : fs.disk.AllMapped)
    (hsuper : Layout (SuperBlock.fromBytes (fs.disk.block 0))) (hp : fs.disk.Live p)
    (hroom : fs.disk.Roomy (dirAsks fs.disk (fs.disk.inode p))) {child : ℕ} {isDir : Bool}
    (hadd : dirAddEntry fs.disk fs.sb (fs.disk.inode p) name child isDir now =
      some (r, d', sb', dir')) (hT : T fs.disk.node) (hT' : T d'.node) :
    fs.disk.Trail (Disk.Shows T) d' := by
  have hplaced := hc.placed hp
  have habove := Disk.Above.refl hc.sized hsuper
  have hstart := Disk.Trail.refl (habove.shows hc.owned hm hT)
  unfold dirAddEntry at hadd
  obtain ⟨found, -, hadd⟩ := Option.bind_eq_some_iff.mp hadd
  cases found with
  | some slot =>
    simp only [Option.isSome_some, if_true, Option.some.injEq, Prod.mk.injEq] at hadd
    exact hadd.2.1 ▸ hstart
  | none =>
    simp only [Option.isSome_none, Bool.false_eq_true, if_false] at hadd
    obtain ⟨free, hfree, hadd⟩ := Option.bind_eq_some_iff.mp hadd
    rcases findFreeSlot_cases hplaced.sized hplaced.onDisk hfree with
      ⟨rfl, hfull⟩ | ⟨old, b, off, pre, post, rfl, hsplit, -⟩
    · dsimp only at hadd
      split_ifs at hadd with hcount
      · obtain ⟨⟨newBlock, d₁, sb₁⟩, halloc, hadd⟩ := Option.bind_eq_some_iff.mp hadd
        have hmarked := (allocateBlock_above habove hc.layout halloc).mono fun x hx =>
          hx.shows hc.owned hm hT
        cases newBlock with
        | none =>
          simp only [Option.some.injEq, Prod.mk.injEq] at hadd
          exact hadd.2.1 ▸ hmarked
        | some b =>
          obtain ⟨d₂, hput, hadd⟩ := Option.bind_eq_some_iff.mp hadd
          simp only [Option.some.injEq, Prod.mk.injEq] at hadd
          obtain ⟨-, rfl, -, -⟩ := hadd
          have hasks : dirAsks fs.disk (fs.disk.inode p) = 1 := by
            rw [dirAsks, if_pos]
            have hfull' : ∀ x ∈ (fs.disk.inode p).table fs.disk, x.isEmpty = false := by
              intro x hx
              obtain ⟨s, hs, rfl⟩ := List.mem_map.mp hx
              exact hfull s hs
            simpa [List.all_eq_true] using ⟨hfull', hcount⟩
          rw [hasks] at hroom
          obtain ⟨-, hf, -⟩ := Footprint.of_allocateBlock hc.sized hc.layout hc.owned.low hroom
            halloc
          obtain ⟨hlow, hlt, -, -⟩ := hf.fresh b (List.mem_singleton.mpr rfl)
          have hdata := hmarked.shows (by omega) hlt
            ((Vector.zeros blockSize).copyAt 0 dirEntrySize
              (DirEntry.new child name isDir).toBytes.byteAt) (by
              rw [(hf.store_new (List.mem_singleton.mpr rfl) _).node_eq hc hm]
              exact hT)
          obtain rfl := hdata.last.sized.eq_of_writeInode hf.layout
            (by exact hplaced.inodeNo.recordBlock_lt) hput
          exact hdata.shows_putInode (by exact hplaced.inodeNo) hT'
      · simp only [Option.some.injEq, Prod.mk.injEq] at hadd
        exact hadd.2.1 ▸ hstart
    · dsimp only at hadd
      obtain ⟨d₂, hput, hadd⟩ := Option.bind_eq_some_iff.mp hadd
      simp only [Option.some.injEq, Prod.mk.injEq] at hadd
      obtain ⟨-, rfl, -, -⟩ := hadd
      have hb := (Inode.mem_slots (hsplit ▸ List.mem_append_right pre List.mem_cons_self)).1
      have hlt := (hplaced.range b (Inode.mem_refs_of_mem_blocks hb)).2.1
      obtain rfl := (hc.sized.writeBlock hlt _).eq_of_writeInode hc.layout
        (by exact hplaced.inodeNo.recordBlock_lt) hput
      exact rewrite_shows hc.owned hm hp habove hc.layout hb _ ⟨rfl, rfl, rfl, rfl⟩ rfl rfl rfl hT hT'

end Directory

section Growth

variable {fs : Fs} {i : Inode} {d' : Disk} {sb' : SuperBlock} {T : FileStore → Prop}

end Growth

end SimpleFS
