import SimpleFS.Requests.Steps

/-! What every answered request preserves: the ownership of blocks, the free count, the block maps
and the tree of directories. -/
namespace SimpleFS

/-- Every block of every inode in use is there. -/
def Disk.AllMapped (d : Disk) : Prop := ∀ n, d.Live n → (d.inode n).Mapped d

/-- The part of an outcome that does not depend on the request: what was written or freed belonged
to the inodes `recs`, and these still have all their blocks. -/
structure Touched (fs fs' : Fs) (recs own new freed : List ℕ) : Prop where
  footprint : Footprint fs fs' recs own new freed
  written : ∀ b ∈ own, b = 0 ∨ ∃ n ∈ recs, b ∈ fs.disk.held n
  super : fs.disk.AllMapped → 0 ∉ own
  released : ∀ b ∈ freed, ∃ n, b ∈ fs.disk.held n
  mapped : fs.disk.AllMapped → ∀ n ∈ recs, fs'.disk.Live n → (fs'.disk.inode n).Mapped fs'.disk

theorem Consistent.zero_not_mem_held {fs : Fs} (hc : Consistent fs) (n : ℕ) :
    0 ∉ fs.disk.held n := by
  intro h0
  have := (hc.owned.range n 0 h0).1
  omega

namespace Touched

variable {fs fs' : Fs} {recs own new freed : List ℕ}

theorem not_mem_held (h : Touched fs fs' recs own new freed) (hc : Consistent fs) {n : ℕ}
    (hrecs : n ∉ recs) : ∀ b ∈ own, b ∉ fs.disk.held n := by
  intro b hb hheld
  rcases h.written b hb with rfl | ⟨r, hr, hbr⟩
  · exact hc.zero_not_mem_held n hheld
  · exact hrecs (hc.owned.exclusive.owner_unique hheld hbr ▸ hr)

theorem untouched (h : Touched fs fs' recs own new freed) (hc : Consistent fs) {n : ℕ}
    (hn : fs.disk.Live n) (hrecs : n ∉ recs) : Untouched fs.disk fs'.disk n :=
  h.footprint.untouched_of_live hc.owned hn hrecs (h.not_mem_held hc hrecs)

theorem sameNode (h : Touched fs fs' recs own new freed) (hc : Consistent fs) {q : ℕ}
    (hrecs : q ∉ recs) : SameNode fs.disk fs'.disk q := by
  by_cases hq : fs.disk.Live q
  · exact (h.untouched hc hq hrecs).sameNode
  · exact ⟨h.footprint.live_iff hrecs, fun hl => absurd hl hq, fun hl => absurd hl.1 hq⟩

theorem allMapped (h : Touched fs fs' recs own new freed) (hc : Consistent fs)
    (hm : fs.disk.AllMapped) : fs'.disk.AllMapped := by
  intro n hn
  by_cases hrecs : n ∈ recs
  · exact h.mapped hm n hrecs hn
  · have hold : fs.disk.Live n := (h.footprint.live_iff hrecs).mp hn
    exact (h.untouched hc hold hrecs).mapped (hm n hold)

theorem synced (h : Touched fs fs' recs own new freed) (hm : fs.disk.AllMapped)
    (hs : fs.Synced) : fs'.Synced :=
  h.footprint.synced (h.super hm) hs

theorem reserved (h : Touched fs fs' recs own new freed) (hc : Consistent fs)
    (hr : Reserved fs.disk) : Reserved fs'.disk := by
  intro b hb
  have hfreed : b ∉ freed := fun hmem => by
    obtain ⟨n, hn⟩ := h.released b hmem
    exact (hc.owned.range n b hn).2.2.2 hb
  rw [h.footprint.bit b hb.lt, hr b hb]
  simp [hfreed]

end Touched

section Outcomes

variable {fs fs' : Fs}

theorem Stocked.touched {n : ℕ} {node : Inode} {slots : List DirEntry} {blocks : List ℕ}
    (h : Stocked fs fs' n node slots blocks) (hm : node.Mapped fs'.disk) :
    Touched fs fs' [n] [] blocks [] := by
  refine ⟨h.footprint, by simp, by simp, by simp, fun _ m hmem _ => ?_⟩
  rw [List.mem_singleton.mp hmem, h.inode]
  exact hm

theorem Born.touched {p n : ℕ} {e : DirEntry} {node : Inode} {slots : List DirEntry}
    {blocks grown : List ℕ} (h : Born fs fs' p n e node slots blocks grown) (hc : Consistent fs)
    (hp : fs.disk.Live p) (hm : node.Mapped fs'.disk) :
    Touched fs fs' [n, p] (fs.disk.held p) (blocks ++ grown) [] := by
  refine ⟨h.footprint, fun b hb => Or.inr ⟨p, by simp, hb⟩, fun _ => hc.zero_not_mem_held p,
    by simp, fun hmapped m hmem _ => ?_⟩
  rcases List.mem_pair.mp hmem with rfl | rfl
  · rw [h.inode]
    exact hm
  · exact h.mapped (hmapped m hp)

theorem Gone.blocks {p c : ℕ} {name : String} {now : Int64} {freed : List ℕ}
    (h : Gone fs fs' p c name now freed) (hpc : p ≠ c) :
    (fs'.disk.inode p).blocks fs'.disk = (fs.disk.inode p).blocks fs.disk := by
  have hrefs := h.refs hpc
  have hind : (fs'.disk.inode p).indirectBlock = (fs.disk.inode p).indirectBlock := by
    rw [h.inode hpc]
  rw [Inode.refs, Inode.refs, hind] at hrefs
  exact List.append_cancel_right hrefs

theorem Gone.touched {p c : ℕ} {name : String} {now : Int64} {freed : List ℕ}
    (h : Gone fs fs' p c name now freed) (hc : Consistent fs) (hp : fs.disk.Live p) :
    Touched fs fs' [c, p] (fs.disk.held p) [] freed := by
  refine ⟨h.footprint, fun b hb => Or.inr ⟨p, by simp, hb⟩, fun _ => hc.zero_not_mem_held p,
    fun b hb => ⟨c, h.freed hb⟩, fun hmapped m hmem hlive => ?_⟩
  have hmc : m ≠ c := fun hmc => h.unused (hmc ▸ hlive)
  obtain rfl : m = p := by simpa [hmc] using hmem
  have hlen := Inode.mapped_iff_length_blocks.mp (hmapped m hp)
  rw [Inode.mapped_iff_length_blocks, h.blocks hmc, hlen, h.inode hmc]

private theorem slack_super {n : ℕ} (hc : Consistent fs) (hn : fs.disk.Live n)
    (hm : fs.disk.AllMapped) : 0 ∉ (fs.disk.inode n).slack := by
  intro h0
  apply hc.zero_not_mem_held n
  rw [hn.held]
  exact Inode.slack_subset_refs (hm n hn).linked h0

theorem Stalled.touched {n : ℕ} {new : List ℕ} (h : Stalled fs fs' n new) (hc : Consistent fs)
    (hn : fs.disk.Live n) : Touched fs fs' [n] (fs.disk.inode n).slack new [] := by
  refine ⟨h.footprint.mono (List.nil_subset _) (List.Subset.refl _),
    fun b hb => (slack_held hn b hb).imp_right fun hb => ⟨n, by simp, hb⟩, slack_super hc hn,
    by simp, fun hm m hmem _ => ?_⟩
  rw [List.mem_singleton.mp hmem, h.inode]
  exact h.mapped (hm n hn)

theorem Wrote.touched {n : ℕ} {offset : Int64} {data : List UInt8} {new : List ℕ}
    (h : Wrote fs fs' n offset data new) (hc : Consistent fs) (hn : fs.disk.Live n) :
    Touched fs fs' [n] ((fs.disk.inode n).slack ++ fs.disk.held n) new [] := by
  refine ⟨h.footprint, fun b hb => ?_, fun hm h0 => ?_, by simp, fun hm m hmem _ => ?_⟩
  · rcases List.mem_append.mp hb with hb | hb
    · exact (slack_held hn b hb).imp_right fun hb => ⟨n, by simp, hb⟩
    · exact Or.inr ⟨n, by simp, hb⟩
  · rcases List.mem_append.mp h0 with h0 | h0
    · exact slack_super hc hn hm h0
    · exact hc.zero_not_mem_held n h0
  · rw [List.mem_singleton.mp hmem]
    exact h.mapped (hm n hn)

theorem Attributed.touched {n : ℕ} (h : Attributed fs fs' n) (hn : fs.disk.Live n) :
    Touched fs fs' [n] [] [] [] := by
  refine ⟨h.footprint, by simp, by simp, by simp, fun hm m hmem _ => ?_⟩
  rw [List.mem_singleton.mp hmem]
  exact h.restamped.mapped (hm n hn)

end Outcomes

theorem mapped_createdInode (d : Disk) (n : ℕ) (now : Int64) : (createdInode n now).Mapped d :=
  fun k hk => absurd hk (Nat.not_lt_zero k)

theorem Born.mapped_madeInode {fs fs' : Fs} {p n b : ℕ} {e : DirEntry} {now : Int64}
    {slots : List DirEntry} {grown : List ℕ}
    (h : Born fs fs' p n e (madeInode n b now) slots [b] grown) :
    (madeInode n b now).Mapped fs'.disk := by
  rw [Inode.mapped_iff_length_blocks]
  have hrefs := h.nodeRefs
  rw [Inode.refs, if_pos (show (madeInode n b now).indirectBlock = 0 from rfl),
    List.append_nil] at hrefs
  rw [hrefs]
  rfl

namespace Change

variable {fs fs' : Fs}

theorem touched (h : Change fs fs') (hc : Consistent fs) :
    ∃ recs own new freed, Touched fs fs' recs own new freed := by
  cases h with
  | same h =>
    subst h
    exact ⟨_, _, _, _, .refl hc.sized hc.layout, by simp, by simp, by simp, by simp⟩
  | orphan _ _ hs => exact ⟨_, _, _, _, hs.touched (mapped_createdInode _ _ _)⟩
  | file hp _ _ hb => exact ⟨_, _, _, _, hb.touched hc hp.1 (mapped_createdInode _ _ _)⟩
  | dir hp _ _ hb => exact ⟨_, _, _, _, hb.touched hc hp.1 hb.mapped_madeInode⟩
  | gone hp _ _ hg => exact ⟨_, _, _, _, hg.touched hc hp.1⟩
  | stalled hn _ hs => exact ⟨_, _, _, _, hs.touched hc hn⟩
  | wrote hn _ hw => exact ⟨_, _, _, _, hw.touched hc hn⟩
  | attributed hn ha => exact ⟨_, _, _, _, ha.touched hn⟩

theorem consistent (h : Change fs fs') (hc : Consistent fs) : Consistent fs' := by
  cases h with
  | same h => exact h ▸ hc
  | orphan _ _ hs => exact hs.consistent
  | file _ _ _ hb => exact hb.consistent
  | dir _ _ _ hb => exact hb.consistent
  | gone _ _ _ hg => exact hg.consistent
  | stalled _ _ hs => exact hs.consistent
  | wrote _ _ hw => exact hw.consistent
  | attributed _ ha => exact ha.consistent

theorem balance (h : Change fs fs') (hc : Consistent fs) : fs'.balance = fs.balance := by
  obtain ⟨_, _, _, _, ht⟩ := h.touched hc
  exact ht.footprint.balance

theorem synced (h : Change fs fs') (hc : Consistent fs) (hm : fs.disk.AllMapped)
    (hs : fs.Synced) : fs'.Synced := by
  obtain ⟨_, _, _, _, ht⟩ := h.touched hc
  exact ht.synced hm hs

theorem allMapped (h : Change fs fs') (hc : Consistent fs) (hm : fs.disk.AllMapped) :
    fs'.disk.AllMapped := by
  obtain ⟨_, _, _, _, ht⟩ := h.touched hc
  exact ht.allMapped hc hm

theorem reserved (h : Change fs fs') (hc : Consistent fs) (hr : Reserved fs.disk) :
    Reserved fs'.disk := by
  obtain ⟨_, _, _, _, ht⟩ := h.touched hc
  exact ht.reserved hc hr

end Change

section Tree

variable {fs fs' : Fs}

/-- The entries of a directory from its slots. -/
theorem perm_entries_insert {d d' : Disk} {i i' : Inode} {e : DirEntry}
    (he : e.isEmpty = false)
    (h : i'.table d' = SlotTable.insert DirEntry.isEmpty e (List.replicate 14 .blank)
      (i.table d)) : (i'.entries d').Perm (e :: i.entries d) := by
  rw [Inode.entries, h]
  refine SlotTable.perm_live_insert he fun x hx => ?_
  rw [(List.mem_replicate.mp hx).2, DirEntry.isEmpty_blank]

/-- A name that was not in the directory is found after it was added. -/
theorem Born.found {p n : ℕ} {name : String} {isDir : Bool} {node : Inode}
    {slots : List DirEntry} {blocks grown : List ℕ}
    (h : Born fs fs' p n (.new n name isDir) node slots blocks grown) (hp : fs.disk.Live p)
    (hne : name ≠ "") (hlen : name.toByteArray.size ≤ 28)
    (hlacks : (fs.disk.inode p).Lacks fs.disk name) :
    ∃ s, dirFind fs'.disk (fs'.disk.inode p) name = some (some (.new n name isDir, s)) := by
  have hp' : fs'.disk.Live p := ⟨hp.1, by rw [h.nlink]; exact hp.2⟩
  have hplaced := h.consistent.placed hp'
  have hperm := perm_entries_insert (DirEntry.isEmpty_new n isDir hne) h.table
  have hsplit : ∀ x ∈ (fs'.disk.inode p).entries fs'.disk,
      x = .new n name isDir ∨ x ∈ (fs.disk.inode p).entries fs.disk := fun x hx =>
    List.mem_cons.mp (hperm.mem_iff.mp hx)
  have hnamed : (DirEntry.new n name isDir).named name = true := by
    rw [DirEntry.named_new_of_le n isDir hlen]
    exact decide_eq_true rfl
  refine dirFind_of_mem_entries hplaced.sized hplaced.onDisk (fun x hx => ?_)
    (hperm.mem_iff.mpr List.mem_cons_self) hnamed fun x hx hxname => ?_
  · rcases hsplit x hx with rfl | hx
    · rw [DirEntry.nameStr_new_of_le n isDir hlen]
      simp
    · exact (hlacks x hx).1
  · rcases hsplit x hx with rfl | hx
    · rfl
    · rw [(hlacks x hx).2] at hxname
      cases hxname

theorem Born.added {p n : ℕ} {name : String} {isDir : Bool} {node : Inode}
    {slots : List DirEntry} {blocks grown : List ℕ}
    (h : Born fs fs' p n (.new n name isDir) node slots blocks grown) (hc : Consistent fs)
    (hp : fs.disk.IsDirectory p) (hname : ProperName name) (h1 : n ≠ 1) (hlink : node.nlink ≠ 0)
    (hkind : node.isDir = isDir)
    (hdots : isDir = true → slots = dots n p) (hm : node.Mapped fs'.disk) : Added fs.disk fs'.disk p n (.new n name isDir) := by
  have hn32 := toNat_ofNat_of_inodeNo h.inodeNo
  have hparent : fs'.disk.IsDirectory p := by
    refine ⟨⟨hp.1.1, ?_⟩, ?_⟩
    · rw [h.nlink]
      exact hp.1.2
    · rw [Inode.isDir, h.mode]
      exact hp.2
  exact {
    parent := hp
    fresh := h.unused
    ne_root := h1
    others := fun q hqp hqn => (h.touched hc hp.1 hm).sameNode hc (by simp [hqp, hqn])
    isDirectory := hparent
    entries := perm_entries_insert (DirEntry.isEmpty_new n isDir hname.ne_empty) h.table
    ordinary := DirEntry.ordinary_new n isDir hname.ne_dot hname.ne_dotdot
    names := by rw [DirEntry.inode_new, hn32]
    typed := by rw [DirEntry.entryType_new, h.inode, hkind]
    live := ⟨h.inodeNo, by rw [h.inode]; exact hlink⟩
    dots := fun hdir => by
      rw [h.inode, hkind] at hdir
      refine ⟨.new n "." true, .new p ".." true, ?_, ⟨(DirEntry.named_new_dot n).1,
        (DirEntry.named_new_dot n).2, hn32⟩, (DirEntry.named_new_dotdot p).1,
        (DirEntry.named_new_dotdot p).2, toNat_ofNat_of_inodeNo hp.1.1⟩
      rw [h.inode, Inode.entries, h.nodeTable, hdots hdir]
      simp [dots, SlotTable.live, DirEntry.isEmpty_new] }

theorem Names.mem_listed {d : Disk} {p : ℕ} {name : String} {e : DirEntry}
    (h : Names d p name e) (hp : d.IsDirectory p) (hname : ProperName name) : e ∈ d.listed p :=
  Disk.mem_listed.mpr ⟨hp, h.mem_entries, hname.ordinary h.named⟩

theorem Gone.removed {p : ℕ} {e : DirEntry} {name : String} {now : Int64} {freed : List ℕ}
    (h : Gone fs fs' p e.inode.toNat name now freed) (hc : Consistent fs)
    (hp : fs.disk.IsDirectory p) (hn : Names fs.disk p name e) (hname : ProperName name) :
    Removed fs.disk fs'.disk p e.inode.toNat e := by
  refine ⟨hn.mem_listed hp hname, rfl, h.unused, fun q hqp hqc => ?_, fun hpc => ?_, fun hpc => ?_⟩
  · exact (h.touched hc hp.1).sameNode hc (by simp [hqp, hqc])
  · have hnlink : (fs'.disk.inode p).nlink = (fs.disk.inode p).nlink := by rw [h.inode hpc]
    have hmode : (fs'.disk.inode p).mode = (fs.disk.inode p).mode := by rw [h.inode hpc]
    refine ⟨⟨hp.1.1, ?_⟩, ?_⟩
    · rw [hnlink]
      exact hp.1.2
    · rw [Inode.isDir, hmode]
      exact hp.2
  · obtain ⟨s, pre, post, hfirst⟩ := hn
    have htable : (fs.disk.inode p).table fs.disk =
        pre.map Prod.fst ++ e :: post.map Prod.fst := by
      rw [Inode.table, hfirst.split, List.map_append, List.map_cons]
    have hpresent : e.isEmpty = false := hfirst.present
    rw [Inode.entries, Inode.entries, h.table hpc, hfirst.clear_table, htable]
    simp only [SlotTable.live, List.filter_append]
    rw [List.filter_cons_of_pos (by simp [hpresent]), List.filter_cons_of_neg (by simp)]
    exact List.perm_middle

/-- A request that keeps the nodes it touched keeps the tree. -/
theorem Touched.sameTree {recs own new freed : List ℕ} (h : Touched fs fs' recs own new freed)
    (hc : Consistent fs) (hrecs : ∀ n ∈ recs, fs.disk.Live n → SameNode fs.disk fs'.disk n)
    (hunused : ∀ n ∈ recs, ¬ fs.disk.Live n → ¬ fs'.disk.IsDirectory n) :
    SameTree fs.disk fs'.disk := by
  refine ⟨fun q hq => ?_, fun q hq hdir => ?_⟩
  · by_cases hmem : q ∈ recs
    · exact hrecs q hmem hq
    · exact h.sameNode hc hmem
  · by_cases hmem : q ∈ recs
    · exact hunused q hmem hq hdir
    · exact hq ((h.footprint.live_iff hmem).mp hdir.1)

theorem Stocked.sameTree {n : ℕ} {now : Int64}
    (h : Stocked fs fs' n (createdInode n now) [] []) (hc : Consistent fs)
    (hn : ¬ fs.disk.Live n) : SameTree fs.disk fs'.disk := by
  refine (h.touched (mapped_createdInode _ _ _)).sameTree hc (fun m hm hl => ?_) fun m hm _ hdir => ?_
  · exact absurd (List.mem_singleton.mp hm ▸ hl) hn
  · have hfile := hdir.2
    rw [List.mem_singleton.mp hm, h.inode, isDir_createdInode] at hfile
    cases hfile

/-- Directories whose inode and slots are as before. -/
private theorem sameTree_of_file {n : ℕ} {own new freed : List ℕ}
    (h : Touched fs fs' [n] own new freed) (hc : Consistent fs) (hn : fs.disk.Live n)
    (hnlink : (fs'.disk.inode n).nlink = (fs.disk.inode n).nlink)
    (hdir : (fs'.disk.inode n).isDir = (fs.disk.inode n).isDir)
    (hentries : fs.disk.IsDirectory n →
      (fs'.disk.inode n).entries fs'.disk = (fs.disk.inode n).entries fs.disk) :
    SameTree fs.disk fs'.disk := by
  refine h.sameTree hc (fun m hm _ => ?_) fun m hm hl => ?_
  · obtain rfl := List.mem_singleton.mp hm
    exact ⟨by rw [Disk.Live, Disk.Live, hnlink], fun _ => hdir, hentries⟩
  · exact absurd (List.mem_singleton.mp hm ▸ hn) hl

theorem Stalled.sameTree {n : ℕ} {new : List ℕ} (h : Stalled fs fs' n new) (hc : Consistent fs)
    (hn : fs.disk.Live n) (hfile : (fs.disk.inode n).isDir = false) :
    SameTree fs.disk fs'.disk := by
  refine sameTree_of_file (h.touched hc hn) hc hn (by rw [h.inode]) (by rw [h.inode]) fun hdir => ?_
  rw [hdir.2] at hfile
  cases hfile

theorem Wrote.sameTree {n : ℕ} {offset : Int64} {data : List UInt8} {new : List ℕ}
    (h : Wrote fs fs' n offset data new) (hc : Consistent fs) (hn : fs.disk.Live n)
    (hfile : (fs.disk.inode n).isDir = false) : SameTree fs.disk fs'.disk := by
  refine sameTree_of_file (h.touched hc hn) hc hn h.nlink (by rw [Inode.isDir, h.mode, Inode.isDir])
    fun hdir => ?_
  rw [hdir.2] at hfile
  cases hfile

theorem Attributed.sameTree {n : ℕ} (h : Attributed fs fs' n) (hc : Consistent fs)
    (hn : fs.disk.Live n) : SameTree fs.disk fs'.disk := by
  refine sameTree_of_file (h.touched hn) hc hn h.nlink h.isDir fun _ => ?_
  rw [Inode.entries, h.restamped.table, Inode.entries]

theorem Change.treeChange (h : Change fs fs') (hc : Consistent fs) :
    TreeChange fs.disk fs'.disk := by
  cases h with
  | same h =>
    subst h
    exact .same ⟨fun q _ => ⟨Iff.rfl, fun _ => rfl, fun _ => rfl⟩, fun q hq hdir => hq hdir.1⟩
  | orphan _ hn hs => exact .same (hs.sameTree hc hn)
  | file hp hname h1 hb =>
    exact .added (hb.added hc hp hname h1 (nlink_createdInode _ _) (isDir_createdInode _ _)
      (by simp) (mapped_createdInode _ _ _))
  | dir hp hname h1 hb =>
    exact .added (hb.added hc hp hname h1 (nlink_madeInode _ _ _) (isDir_madeInode _ _ _)
      (fun _ => rfl) hb.mapped_madeInode)
  | gone hp hn hname hg => exact .removed (hg.removed hc hp hn hname)
  | stalled hn hfile hs => exact .same (hs.sameTree hc hn hfile)
  | wrote hn hfile hw => exact .same (hw.sameTree hc hn hfile)
  | attributed hn ha => exact .same (ha.sameTree hc hn)

end Tree

end SimpleFS
