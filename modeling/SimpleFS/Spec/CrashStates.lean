import SimpleFS.Requests.Ordering
import SimpleFS.Spec.CrashSteps
import SimpleFS.Spec.Refinement

/-! What mounting finds after a crash: the store before the request, the one after it, or one of the
few between them. -/
namespace SimpleFS
open NodeStore Overlay Function Bitmap Runs

section Write

variable {fs fs₁ : Fs} {n m pos : ℕ} {new : List ℕ} {i : Inode} {data : List UInt8}

end Write

section Requests

variable {fs fs' : Fs} {p n : ℕ} {name : ByteArray} {now : ℕ → Int64}

theorem StoreSound.super (hs : StoreSound fs) : Layout (SuperBlock.fromBytes (fs.disk.block 0)) := by
  rw [show SuperBlock.fromBytes (fs.disk.block 0) = fs.sb from hs.synced]
  exact hs.layout

theorem StoreSound.shows (hs : StoreSound fs) {T : FileStore → Prop} (hT : T fs.store) :
    fs.disk.Trail (Disk.Shows T) fs.disk :=
  .refl ⟨hs.sized, hs.super, hT⟩

theorem AddOutcome.eq_of_error {dir dir' : Inode} {s msg : String} {e : DirEntry}
    (h : AddOutcome fs dir s e (.error msg) fs' dir') : fs' = fs := by
  cases h <;> rfl

/-- A new inode was stored, and the entry for it is added. -/
theorem Stocked.shows {fs₁ : Fs} {node : Inode} {slots : List DirEntry} {blocks : List ℕ}
    (hst : Stocked fs fs₁ n node slots blocks) (hs : StoreSound fs) (hp : fs.disk.Live p)
    (hne : p ≠ n) (hnode : node.Mapped fs₁.disk)
    (hsuper : Layout (SuperBlock.fromBytes (fs₁.disk.block 0)))
    (hroom : fs₁.disk.Roomy (dirAsks fs.disk (fs.disk.inode p))) {s : String} {child : ℕ}
    {isDir : Bool} {time : Int64} {r : Except String Unit} {d' : Disk} {sb' : SuperBlock}
    {dir' : Inode} {T : FileStore → Prop} (hT : T fs₁.store)
    (h : dirAddEntry fs₁.disk fs₁.sb (fs.disk.inode p) s child isDir time =
      some (r, d', sb', dir')) (hT' : ∀ u, r = .ok u → T d'.node) :
    fs₁.disk.Trail (Disk.Shows T) d' := by
  have hc := hs.toConsistent
  have hu := hst.untouched hc hp hne
  have htable := hu.table
  have hlive := hu.live.mpr hp
  rw [hu.inode] at htable
  rw [← dirAsks_congr htable, ← hu.inode] at hroom
  rw [← hu.inode] at h
  refine dirAddEntry_shows hst.consistent ((hst.touched hnode).allMapped hc hs.mapped) hsuper hlive
    hroom h hT ?_
  have houtcome := dirAddEntry_outcome (hst.consistent.placed hlive)
    (hst.consistent.owned.used hlive) hst.consistent.owned.low hroom h
  cases r with
  | error msg =>
    rw [show d' = fs₁.disk from congrArg Fs.disk houtcome.eq_of_error]
    exact hT
  | ok u => exact hT' u rfl

theorem Stocked.mapped_madeInode {b : ℕ} {time : Int64} {slots : List DirEntry}
    (h : Stocked fs fs' n (madeInode n b time) slots [b]) :
    (madeInode n b time).Mapped fs'.disk := by
  rw [Inode.mapped_iff_length_blocks]
  have hrefs := h.refs
  rw [Inode.refs, if_pos (show (madeInode n b time).indirectBlock = 0 from rfl),
    List.append_nil] at hrefs
  rw [hrefs]
  rfl

/-- A directory that lost an entry lost its name. -/
theorem RemovedEntry.node {d₀ : Disk} {dir' : Inode} {s : String} {time : Int64}
    (h : RemovedEntry fs fs' (d₀.inode p) dir' s time) (habove : d₀.Above fs.disk)
    (ho : Owned d₀) (hm : d₀.AllMapped) (hp : d₀.IsDirectory p)
    (hlist : d₀.Listing DirEntry.nameStr p) :
    fs'.disk.node = update d₀.node p (some (.dir (d₀.inode p).mode
      (update ((d₀.inode p).names d₀) s none))) := by
  have hf := h.footprint
  have hinode := h.inode
  have hkeep := habove.block_of_refs ho hp.1
  rw [Consistent.toNat_inodeNo hp.1.1] at hf hinode
  funext q
  by_cases hq : q = p
  · subst hq
    have hmode : (fs'.disk.inode q).mode = (d₀.inode q).mode := by rw [hinode, h.dir_eq]
    have hnlink : (fs'.disk.inode q).nlink = (d₀.inode q).nlink := by rw [hinode, h.dir_eq]
    have hdir : fs'.disk.IsDirectory q := by
      constructor
      · exact ⟨hp.1.1, by rw [hnlink]; exact hp.1.2⟩
      · rw [Inode.isDir, hmode]
        exact hp.2
    have htable : (d₀.inode q).table fs.disk = (d₀.inode q).table d₀ :=
      congrArg (List.map Prod.fst) (Inode.slots_congr hkeep)
    have hlists : (fs'.disk.inode q).Lists fs'.disk
        (update ((d₀.inode q).names d₀) s none) := by
      rw [Inode.Lists, Inode.entries, hinode, h.table, htable,
        SlotTable.live_clear DirEntry.isEmpty_cleared]
      exact hlist.lists.eraseP s
    rw [update_self, node_of_isDirectory hdir, hlists.names_eq, hmode]
  · rw [update_of_ne hq]
    refine Disk.node_congr (fun hqno => ?_) (fun hlive b hb => ?_) (hm q)
    · rw [hf.inode q hqno (by simpa using hq), habove.inode]
    · obtain ⟨hlow, -, -, hr⟩ := ho.range q b (hlive.held ▸ hb)
      rw [hf.block b (by omega) hr (fun hmem => ?_) (by simp), habove.block b (by omega)]
      rw [Inode.refs_congr fun hi => hkeep _ (Inode.indirectBlock_mem_refs hi), ← hp.1.held] at hmem
      exact hq (ho.exclusive.owner_unique (hlive.held ▸ hb) hmem)

end Requests

end SimpleFS
