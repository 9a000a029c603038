import SimpleFS.Requests.Runs
import SimpleFS.Requests.Space

/-! Deleting gives back the space that was taken: what a subtree of directories and files holds is
all that was marked used on its account. -/
namespace SimpleFS
open Relation Runs

/-- The indirect block is there exactly when it is needed, and never in a directory. -/
structure Inode.Tidy (i : Inode) : Prop where
  directory : i.isDir = true → i.indirectBlock = 0
  file : i.isDir = false → i.Shaped

theorem Inode.Tidy.of_sameMap {i j : Inode} (h : i.Tidy) (hj : SameMap j i)
    (hdir : j.isDir = i.isDir) : j.Tidy where
  directory hj' := hj.indirectBlock.trans (h.directory (hdir ▸ hj'))
  file hj' := hj.shaped (h.file (hdir ▸ hj'))

theorem Inode.Tidy.setMtime {i : Inode} (h : i.Tidy) (now : Int64) :
    Inode.Tidy { i with mtime := now } :=
  h.of_sameMap ⟨rfl, rfl, rfl, rfl⟩ rfl

/-- Inode `m` is found from directory `root`. -/
def Disk.Beneath (d : Disk) (root m : ℕ) : Prop := ReflTransGen (fun q r => r ∈ d.children q) root m

/-- The inodes `recs` gave up the blocks `freed` and got the blocks `new`. -/
structure Traded (fs fs' : Fs) (recs new freed : List ℕ) : Prop where
  touched : ∃ own, Touched fs fs' recs own new freed
  exchange : Exchange (· ∈ recs) fs.disk.held fs'.disk.held new freed

section Outcomes

variable {fs fs' : Fs}

theorem Touched.held_eq {recs own new freed : List ℕ} (h : Touched fs fs' recs own new freed)
    (hc : Consistent fs) {m : ℕ} (hm : m ∉ recs) : fs'.disk.held m = fs.disk.held m :=
  h.footprint.held_eq hc.owned hm (h.not_mem_held hc hm)

theorem Born.live {p n : ℕ} {e : DirEntry} {node : Inode} {slots : List DirEntry}
    {blocks grown : List ℕ} (h : Born fs fs' p n e node slots blocks grown)
    (hlink : node.nlink ≠ 0) : fs'.disk.Live n :=
  ⟨h.inodeNo, by rw [h.inode]; exact hlink⟩

theorem Born.live_parent {p n : ℕ} {e : DirEntry} {node : Inode} {slots : List DirEntry}
    {blocks grown : List ℕ} (h : Born fs fs' p n e node slots blocks grown)
    (hp : fs.disk.Live p) : fs'.disk.Live p :=
  ⟨hp.1, by rw [h.nlink]; exact hp.2⟩

theorem Born.traded {p n : ℕ} {e : DirEntry} {node : Inode} {slots : List DirEntry}
    {blocks grown : List ℕ} (h : Born fs fs' p n e node slots blocks grown) (hc : Consistent fs)
    (hp : fs.disk.Live p) (hlink : node.nlink ≠ 0) (hm : node.Mapped fs'.disk) :
    Traded fs fs' [n, p] (blocks ++ grown) [] := by
  have ht := h.touched hc hp hm
  have hnode : fs'.disk.held n = blocks := by
    rw [(h.live hlink).held, h.inode, h.nodeRefs]
  have hparent : (fs'.disk.held p).Perm (fs.disk.held p ++ grown) := by
    rw [(h.live_parent hp).held]
    exact h.refs
  refine ⟨⟨_, ht⟩, fun m hm => ht.held_eq hc hm, fun b => ?_, by simp⟩
  simp only [List.mem_cons, List.not_mem_nil, or_false, exists_eq_or_imp, exists_eq_left,
    not_false_eq_true, and_true, List.mem_append, hnode, hparent.mem_iff,
    Disk.held_of_not_live h.unused, false_or]
  tauto

theorem Wrote.live {n : ℕ} {offset : Int64} {data : List UInt8} {new : List ℕ}
    (h : Wrote fs fs' n offset data new) (hn : fs.disk.Live n) : fs'.disk.Live n :=
  ⟨hn.1, by rw [h.nlink]; exact hn.2⟩

theorem Wrote.traded {n : ℕ} {offset : Int64} {data : List UInt8} {new : List ℕ}
    (h : Wrote fs fs' n offset data new) (hc : Consistent fs) (hn : fs.disk.Live n)
    (hs : (fs.disk.inode n).Shaped) : Traded fs fs' [n] new [] := by
  have ht := h.touched hc hn
  refine ⟨⟨_, ht⟩, fun m hm => ht.held_eq hc hm, fun b => ?_, by simp⟩
  simp [(h.shaped hs).2.mem_iff]

theorem Gone.traded {p c : ℕ} {name : String} {now : Int64} {freed : List ℕ}
    (h : Gone fs fs' p c name now freed) (hc : Consistent fs) (hp : fs.disk.Live p)
    (hfreed : freed = fs.disk.held c) : Traded fs fs' [c, p] [] freed := by
  have ht := h.touched hc hp
  refine ⟨⟨_, ht⟩, fun m hm => ht.held_eq hc hm, fun b => ?_, fun b hb => ⟨c, by simp, h.freed hb⟩⟩
  simp only [List.mem_cons, List.not_mem_nil, or_false, exists_eq_or_imp, exists_eq_left,
    Disk.held_of_not_live h.unused, false_or, hfreed]
  by_cases hpc : p = c
  · simp [hpc, Disk.held_of_not_live h.unused]
  · have hheld : fs'.disk.held p = fs.disk.held p := by
      have hlive : fs'.disk.Live p := ⟨hp.1, by rw [h.inode hpc]; exact hp.2⟩
      rw [hlive.held, h.refs hpc, hp.held]
    rw [hheld]
    constructor
    · exact fun hb => ⟨Or.inr hb, fun hb' => hpc (hc.owned.exclusive.owner_unique hb hb')⟩
    · exact fun hb => hb.1.resolve_left hb.2

end Outcomes

section Trees

variable {d d' : Disk} {root p n c m : ℕ} {e : DirEntry}

theorem Added.children_subset (h : Added d d' p n e) (q : ℕ) : d.children q ⊆ d'.children q := by
  by_cases hq : q = p
  · rw [hq]
    exact fun m hm => h.children_self.mem_iff.mpr (List.mem_cons_of_mem n hm)
  · rw [h.children_other hq]
    exact List.Subset.refl _

theorem Added.beneath (h : Added d d' p n e) (hm : d.Beneath root m) : d'.Beneath root m :=
  ReflTransGen.mono (fun q _ hr => h.children_subset q hr) _ _ hm

/-- The paths to what is still there do not lead through an inode that listed nothing. -/
theorem Removed.beneath (h : Removed d d' p c e) (hempty : d.children c = [])
    (hm : d.Beneath root m) (hmc : m ≠ c) : d'.Beneath root m := by
  induction hm with
  | refl => exact .refl
  | @tail q r hq hr ih =>
    have hqc : q ≠ c := by
      rintro rfl
      simp [hempty] at hr
    refine (ih hqc).tail ?_
    by_cases hqp : q = p
    · rw [hqp] at hr hqc ⊢
      exact (List.mem_cons.mp ((h.children_self hqc).mem_iff.mp hr)).resolve_left hmc
    · rwa [(h.others q hqp hqc).children]

end Trees

theorem SameNode.trans {d d' d'' : Disk} {q : ℕ} (h : SameNode d d' q) (h' : SameNode d' d'' q) :
    SameNode d d'' q where
  live := h'.live.trans h.live
  isDir hq := (h'.isDir (h.live.mpr hq)).trans (h.isDir hq)
  entries hq := (h'.entries (h.isDirectory.mpr hq)).trans (h.entries hq)

/-- The inodes `kept` are those that were in use before `root` was made, in a directory of theirs. -/
structure Enclosure (start : Fs) (root : ℕ) (kept : ℕ → Prop) : Prop where
  live : ∀ m, kept m → start.disk.Live m
  outside : ¬ kept root
  parent : ∃ p, kept p ∧ start.disk.Reachable p ∧ root ∈ start.disk.children p
  closed : ∀ q, ¬ kept q → ∀ m ∈ start.disk.children q, ¬ kept m

/-- What requests below `root` keep: nothing happens to the inodes `kept`, all others are found from
`root`, and the blocks in use are those of `base` and those of the others. -/
structure Enclosed (start : Fs) (root : ℕ) (kept base : ℕ → Prop) (fs : Fs) : Prop extends
    Consistent fs, Enclosure start root kept where
  reserved : Reserved fs.disk
  tree : TreeSound fs.disk
  balance : fs.balance = start.balance
  node : ∀ m, kept m → SameNode start.disk fs.disk m
  held : ∀ m, kept m → fs.disk.held m = start.disk.held m
  account : Accounted (fun m => ¬ kept m) base (fun b => b < 20480 ∧ fs.disk.bit b = true)
    fs.disk.held
  below : ∀ q, ¬ kept q → ∀ m ∈ fs.disk.children q, ¬ kept m
  found : ∀ m, ¬ kept m → fs.disk.Live m → fs.disk.Beneath root m
  tidy : ∀ m, ¬ kept m → fs.disk.Live m → (fs.disk.inode m).Tidy

namespace Enclosed

variable {start fs fs' : Fs} {root : ℕ} {kept base : ℕ → Prop} {recs new freed : List ℕ}

theorem live_of_kept (h : Enclosed start root kept base fs) {m : ℕ} (hm : kept m) :
    fs.disk.Live m :=
  (h.node m hm).live.mpr (h.live m hm)

theorem not_kept (h : Enclosed start root kept base fs) {m : ℕ} (hm : fs.disk.Beneath root m) :
    ¬ kept m := by
  induction hm with
  | refl => exact h.outside
  | tail _ hr ih => exact h.below _ ih _ hr

theorem root_mem_children (h : Enclosed start root kept base fs) :
    ∃ p, kept p ∧ fs.disk.Reachable p ∧ root ∈ fs.disk.children p := by
  obtain ⟨p, hp, hreach, hmem⟩ := h.parent
  -- the way from the root to a kept directory leads through kept directories
  have hkept : ∀ q, start.disk.Reachable q → kept q → fs.disk.Reachable q := by
    intro q hq
    induction hq with
    | root hroot => exact fun hk => .root ((h.node 1 hk).isDirectory.mpr hroot)
    | @child q r _ hr hdir ih =>
      intro hk
      have hq : kept q := by
        by_contra hq
        exact h.closed q hq r hr hk
      refine .child (ih hq) ?_ ((h.node r hk).isDirectory.mpr hdir)
      rwa [(h.node q hq).children]
  refine ⟨p, hp, hkept p hreach hp, ?_⟩
  rwa [(h.node p hp).children]

theorem live_root (h : Enclosed start root kept base fs) : fs.disk.Live root := by
  obtain ⟨p, -, -, hmem⟩ := h.root_mem_children
  exact h.tree.live_of_mem_children hmem

/-- The directories below `root` are found from the root of the tree. -/
theorem reachable (h : Enclosed start root kept base fs) {m : ℕ} (hm : fs.disk.Beneath root m)
    (hdir : fs.disk.IsDirectory m) : fs.disk.Reachable m := by
  induction hm with
  | refl =>
    obtain ⟨p, -, hreach, hmem⟩ := h.root_mem_children
    exact .child hreach hmem hdir
  | tail _ hr ih => exact .child (ih (Disk.isDirectory_of_mem_children hr)) hr hdir

theorem mem_used (h : Enclosed start root kept base fs) {b n : ℕ} (hb : b ∈ fs.disk.held n) :
    b < 20480 ∧ fs.disk.bit b = true :=
  ⟨(h.owned.range n b hb).2.1, (h.owned.range n b hb).2.2.1⟩

/-- An exchange of blocks below `root`, as far as the tree of directories has no part in it. -/
theorem trade (h : Enclosed start root kept base fs) (ht : Traded fs fs' recs new freed)
    (hin : ∀ r ∈ recs, ¬ kept r) (hc : Consistent fs') (htree : TreeSound fs'.disk)
    (hbelow : ∀ q, ¬ kept q → ∀ m ∈ fs'.disk.children q, ¬ kept m)
    (hfound : ∀ m, ¬ kept m → fs'.disk.Live m → fs'.disk.Beneath root m)
    (htidy : ∀ r ∈ recs, fs'.disk.Live r → (fs'.disk.inode r).Tidy) :
    Enclosed start root kept base fs' := by
  obtain ⟨⟨own, ht⟩, hx⟩ := ht
  have hf := ht.footprint
  refine ⟨hc, h.toEnclosure, ht.reserved h.toConsistent h.reserved, htree,
    hf.balance.trans h.balance, fun m hm => ?_, fun m hm => ?_, ?_, hbelow, hfound, fun m hm hl => ?_⟩
  · exact (h.node m hm).trans (ht.sameNode h.toConsistent fun hr => hin m hr hm)
  · rw [ht.held_eq h.toConsistent fun hr => hin m hr hm, h.held m hm]
  · refine h.account.exchange h.owned.exclusive hx hin (fun b hb hu => ?_) fun b => ?_
    · rw [(hf.fresh b hb).2.2.1] at hu
      cases hu.2
    · by_cases hlt : b < 20480
      · rw [hf.bit b hlt]
        simp [hlt]
      · have hnew : b ∉ new := fun hb => hlt (hf.fresh b hb).2.1
        simp [hlt, hnew]
  · by_cases hr : m ∈ recs
    · exact htidy m hr hl
    · rw [hf.inode m hl.1 hr]
      exact h.tidy m hm ((hf.live_iff hr).mp hl)

/-- An inode was made below `root`. -/
theorem added (h : Enclosed start root kept base fs) {p n : ℕ} {e : DirEntry} {node : Inode}
    {slots : List DirEntry} {blocks grown : List ℕ} (hp : fs.disk.Beneath root p)
    (hb : Born fs fs' p n e node slots blocks grown) (ha : Added fs.disk fs'.disk p n e)
    (hm : node.Mapped fs'.disk) (htidy : node.Tidy) : Enclosed start root kept base fs' := by
  have hlive := ha.live
  have hlink : node.nlink ≠ 0 := hb.inode ▸ hlive.2
  have hn : ¬ kept n := fun hk => ha.fresh (h.live_of_kept hk)
  refine h.trade (hb.traded h.toConsistent ha.parent.1 hlink hm) (fun r hr => ?_) hb.consistent
    (ha.treeSound h.tree) (fun q hq m hmem => ?_) (fun m hk hl => ?_) fun r hr hl => ?_
  · rcases List.mem_pair.mp hr with rfl | rfl
    · exact hn
    · exact h.not_kept hp
  · by_cases hqp : q = p
    · rw [hqp] at hq hmem
      rcases List.mem_cons.mp (ha.children_self.mem_iff.mp hmem) with rfl | hold
      · exact hn
      · exact h.below p hq m hold
    · rw [ha.children_other hqp] at hmem
      exact h.below q hq m hmem
  · by_cases hmn : m = n
    · rw [hmn]
      exact (ha.beneath hp).tail (ha.children_self.mem_iff.mpr List.mem_cons_self)
    · by_cases hmp : m = p
      · rw [hmp]
        exact ha.beneath hp
      · exact ha.beneath (h.found m hk ((ha.others m hmp hmn).live.mp hl))
  · rcases List.mem_pair.mp hr with rfl | rfl
    · rw [hb.inode]
      exact htidy
    · have hdir := ha.parent.2
      have hold := (h.tidy r (h.not_kept hp) ha.parent.1).directory hdir
      refine ⟨fun _ => by rw [hb.indirectBlock, hold], fun hfile => ?_⟩
      rw [Inode.isDir, hb.mode, ← Inode.isDir, hdir] at hfile
      cases hfile

/-- An inode below `root` that lists nothing was removed. -/
theorem gone (h : Enclosed start root kept base fs) {p : ℕ} {e : DirEntry} {name : String}
    {now : Int64} {freed : List ℕ} (hp : fs.disk.Beneath root p)
    (hg : Gone fs fs' p e.inode.toNat name now freed)
    (hr : Removed fs.disk fs'.disk p e.inode.toNat e)
    (hfreed : freed = fs.disk.held e.inode.toNat) (hempty : fs.disk.children e.inode.toNat = []) :
    Enclosed start root kept base fs' := by
  have hc : ¬ kept e.inode.toNat := h.below p (h.not_kept hp) _ hr.mem_children
  refine h.trade (hg.traded h.toConsistent hr.parent.1 hfreed) (fun r hrec => ?_) hg.consistent
    (hr.treeSound h.tree) (fun q hq m hmem => h.below q hq m (hr.children_subset q hmem))
    (fun m hk hl => ?_) fun r hrec hl => ?_
  · rcases List.mem_pair.mp hrec with rfl | rfl
    · exact hc
    · exact h.not_kept hp
  · have hmc : m ≠ e.inode.toNat := fun heq => hr.gone (heq ▸ hl)
    refine hr.beneath hempty ?_ hmc
    by_cases hmp : m = p
    · exact hmp ▸ hp
    · exact h.found m hk ((hr.others m hmp hmc).live.mp hl)
  · have hrc : r ≠ e.inode.toNat := fun heq => hr.gone (heq ▸ hl)
    obtain rfl : r = p := by simpa [hrc] using hrec
    have hold := h.tidy r (h.not_kept hp) hr.parent.1
    rw [hg.inode hrc]
    exact hold.setMtime now

/-- The tree and what the inodes hold are as before. -/
theorem quiet (h : Enclosed start root kept base fs) (hc : Consistent fs')
    (hres : Reserved fs'.disk) (hs : SameTree fs.disk fs'.disk)
    (hbalance : fs'.balance = fs.balance) (hlive : ∀ m, fs'.disk.Live m → fs.disk.Live m)
    (hheld : ∀ m, fs'.disk.held m = fs.disk.held m)
    (hbit : ∀ b < 20480, fs'.disk.bit b = fs.disk.bit b)
    (htidy : ∀ m, fs.disk.Live m → (fs.disk.inode m).Tidy → (fs'.disk.inode m).Tidy) :
    Enclosed start root kept base fs' := by
  have hchildren : fs'.disk.children = fs.disk.children := funext hs.children
  refine ⟨hc, h.toEnclosure, hres, hs.treeSound h.tree, hbalance.trans h.balance, fun m hm => ?_,
    fun m hm => by rw [hheld, h.held m hm], ?_, ?_, fun m hm hl => ?_, fun m hm hl => ?_⟩
  · exact (h.node m hm).trans (hs.node m (h.live_of_kept hm))
  · rw [show fs'.disk.held = fs.disk.held from funext hheld]
    refine ⟨fun b => ?_, h.account.apart⟩
    rw [← h.account.used_iff b]
    exact and_congr_right fun hb => by rw [hbit b hb]
  · rw [hchildren]
    exact h.below
  · rw [Disk.Beneath, hchildren]
    exact h.found m hm (hlive m hl)
  · exact htidy m (hlive m hl) (h.tidy m hm (hlive m hl))

end Enclosed

/-- The requests that work below `root`, and those that allocate and free nothing. -/
def Request.Below (root : ℕ) (d : Disk) : Request → Prop
  | .create p _ | .mkdir p _ | .rmdir p _ | .unlink p _ => d.Beneath root p
  | .write n _ _ => d.Beneath root n
  | _ => True

/-- The same without the requests that change directories. -/
def Request.Fills (n : ℕ) (_ : Disk) : Request → Prop
  | .create _ _ | .mkdir _ _ | .rmdir _ _ | .unlink _ _ => False
  | .write m _ _ => m = n
  | _ => True

/-- An allowed request of the kernel that succeeds. -/
structure Fs.Completes (allowed : Disk → Request → Prop) (fs : Fs) (e : Event) (fs' : Fs) :
    Prop where
  conforms : fs.Conforms e.request
  allowed : allowed fs.disk e.request
  answers : fs.handle e.now e.request = some (e.reply, fs')
  succeeds : ∀ errno, e.reply ≠ .error errno

theorem Request.Fills.below {n : ℕ} {d : Disk} {r : Request} (h : r.Fills n d) : r.Below n d := by
  cases r with
  | create | mkdir | rmdir | unlink => exact h.elim
  | write m offset data =>
    obtain rfl : m = n := h
    exact .refl
  | _ => trivial

theorem tidy_createdInode (n : ℕ) (now : Int64) : (createdInode n now).Tidy where
  directory hdir := by
    rw [isDir_createdInode] at hdir
    cases hdir
  file _ := by
    simp [Inode.Shaped, createdInode, Inode.newFile]

theorem tidy_madeInode (n b : ℕ) (now : Int64) : (madeInode n b now).Tidy where
  directory _ := rfl
  file hfile := by
    rw [isDir_madeInode] at hfile
    cases hfile

/-- What is freed with an inode is all that it holds. -/
theorem Inode.Tidy.blocks_eq_held {d : Disk} {n : ℕ} (h : (d.inode n).Tidy) (hn : d.IsDirectory n) :
    (d.inode n).blocks d = d.held n := by
  rw [hn.1.held, Inode.refs, if_pos (h.directory hn.2), List.append_nil]

namespace Enclosed

variable {start fs fs' : Fs} {root : ℕ} {kept base : ℕ → Prop} {now : ℕ → Int64} {reply : Reply}

theorem create (h : Enclosed start root kept base fs) {p : ℕ} {name : ByteArray}
    (hp : fs.disk.IsDirectory p) (hname : EntryName name) (hbelow : fs.disk.Beneath root p)
    (hok : ∀ errno, reply ≠ .error errno) (hcreate : fs.create p name now = some (reply, fs')) :
    Enclosed start root kept base fs' := by
  cases create_outcome h.toConsistent hp.1 (h.reserved.stepSafe _) hcreate with
  | found _ => exact absurd rfl (hok _)
  | noInode _ _ => exact absurd rfl (hok _)
  | orphan _ _ _ _ _ _ _ => exact absurd rfl (hok _)
  | created _ hlo _ _ hb =>
    exact h.added hbelow hb (hb.added h.toConsistent hp (hname.proper properName_unknown) (by omega)
      (nlink_createdInode _ _) (isDir_createdInode _ _) (by simp) (mapped_createdInode _ _ _))
      (mapped_createdInode _ _ _) (tidy_createdInode _ _)

theorem mkdir (h : Enclosed start root kept base fs) {p : ℕ} {name : ByteArray}
    (hp : fs.disk.IsDirectory p) (hname : EntryName name) (hbelow : fs.disk.Beneath root p)
    (hok : ∀ errno, reply ≠ .error errno) (hmkdir : fs.mkdir p name now = some (reply, fs')) :
    Enclosed start root kept base fs' := by
  cases mkdirAttempt_outcome h.toConsistent hp.1 (h.reserved.stepSafe _)
    (Fs.answered_eq_some.mp hmkdir) with
  | found _ => exact absurd rfl (hok _)
  | noInode _ _ => exact absurd rfl (hok _)
  | noBlock _ _ => exact absurd rfl (hok _)
  | made _ hlo _ _ hb =>
    exact h.added hbelow hb (hb.added h.toConsistent hp (hname.proper properName_unknown) (by omega)
      (nlink_madeInode _ _ _) (isDir_madeInode _ _ _) (fun _ => rfl) hb.mapped_madeInode)
      hb.mapped_madeInode (tidy_madeInode _ _ _)

theorem unlink (h : Enclosed start root kept base fs) {p : ℕ} {name : ByteArray}
    (hp : fs.disk.IsDirectory p) (hname : EntryName name) (hbelow : fs.disk.Beneath root p)
    (hok : ∀ errno, reply ≠ .error errno) (hunlink : fs.unlink p name now = some (reply, fs')) :
    Enclosed start root kept base fs' := by
  cases unlink_outcome h.toConsistent hp.1 hp.2 (h.tree.live_of_nameOr hp hname) hunlink with
  | missing _ => exact absurd rfl (hok _)
  | isDir _ _ => exact absurd rfl (hok _)
  | gone hn hfile hg =>
    refine h.gone hbelow hg (hg.removed h.toConsistent hp hn (hn.proper hname)) rfl ?_
    rw [Disk.children, Disk.listed_of_not_isDirectory fun hdir => by simp [hdir.2] at hfile,
      List.map_nil]

theorem rmdir (h : Enclosed start root kept base fs) {p : ℕ} {name : ByteArray}
    (hp : fs.disk.IsDirectory p) (hname : EntryName name) (hbelow : fs.disk.Beneath root p)
    (hok : ∀ errno, reply ≠ .error errno) (hrmdir : fs.rmdir p name now = some (reply, fs')) :
    Enclosed start root kept base fs' := by
  cases rmdir_outcome h.toConsistent hp.1 (h.tree.live_of_nameOr hp hname) hrmdir with
  | missing _ => exact absurd rfl (hok _)
  | notDir _ _ => exact absurd rfl (hok _)
  | notEmpty _ _ => exact absurd rfl (hok _)
  | gone hn hdir hlen hg =>
    have hr := hg.removed h.toConsistent hp hn (hn.proper hname)
    have hchild : fs.disk.IsDirectory _ := ⟨h.tree.live_of_mem_children hr.mem_children, hdir⟩
    have hfound := hbelow.tail hr.mem_children
    refine h.gone hbelow hg hr ((h.tidy _ (h.not_kept hfound) hchild.1).blocks_eq_held hchild) ?_
    rw [Disk.children, h.tree.listed_eq_nil (h.reachable hfound hchild) hlen, List.map_nil]

theorem write (h : Enclosed start root kept base fs) {n : ℕ} {offset : Int64} {data : List UInt8}
    (hn : fs.disk.Live n) (hfile : (fs.disk.inode n).isDir = false)
    (hbelow : fs.disk.Beneath root n) (hok : ∀ errno, reply ≠ .error errno)
    (hwrite : fs.write n offset data now = some (reply, fs')) :
    Enclosed start root kept base fs' := by
  cases writeAttempt_outcome h.toConsistent hn (h.reserved.stepSafe _)
    (Fs.answered_eq_some.mp hwrite) with
  | empty _ => exact h
  | tooBig _ _ => exact absurd rfl (hok _)
  | stalled _ _ _ _ _ _ => exact absurd rfl (hok _)
  | wrote _ _ _ hw =>
    have hkept := h.not_kept hbelow
    have hshaped := (h.tidy n hkept hn).file hfile
    have hs := hw.sameTree h.toConsistent hn hfile
    have hlive : ∀ m, fs'.disk.Live m → fs.disk.Live m := by
      intro m hl
      by_cases hmn : m = n
      · exact hmn ▸ hn
      · exact (hw.footprint.live_iff (by simpa using hmn)).mp hl
    refine h.trade (hw.traded h.toConsistent hn hshaped) (by simpa using hkept) hw.consistent
      (hs.treeSound h.tree) (fun q hq m hm => h.below q hq m (hs.children q ▸ hm))
      (fun m hm hl => ?_) fun r hr _ => ?_
    · rw [Disk.Beneath, show fs'.disk.children = fs.disk.children from funext hs.children]
      exact h.found m hm (hlive m hl)
    · rw [List.mem_singleton.mp hr]
      refine ⟨fun hdir => ?_, fun _ => (hw.shaped hshaped).1⟩
      rw [Inode.isDir, hw.mode, ← Inode.isDir, hfile] at hdir
      cases hdir

theorem setattr (h : Enclosed start root kept base fs) {n : ℕ} {mode : Option UInt32}
    (size : Option UInt64) (hn : fs.disk.Live n)
    (hsetattr : fs.setattr n mode size now = some (reply, fs')) :
    Enclosed start root kept base fs' := by
  have ha := @setattr_outcome _ _ _ h.toConsistent hn mode size now _ hsetattr
  have hf := ha.footprint
  have ht := ha.touched hn
  have hn' : fs'.disk.Live n := ⟨hn.1, by rw [ha.nlink]; exact hn.2⟩
  refine h.quiet ha.consistent (ht.reserved h.toConsistent h.reserved)
    (ha.sameTree h.toConsistent hn) hf.balance (fun m hl => ?_) (fun m => ?_)
    (fun b hb => by simp [hf.bit b hb]) fun m hl htidy => ?_
  · by_cases hmn : m = n
    · exact hmn ▸ hn
    · exact (hf.live_iff (by simpa using hmn)).mp hl
  · by_cases hmn : m = n
    · rw [hmn, hn'.held, hn.held, ha.restamped.refs]
    · exact ht.held_eq h.toConsistent (by simpa using hmn)
  · by_cases hmn : m = n
    · rw [hmn] at htidy ⊢
      exact htidy.of_sameMap ha.sameMap ha.isDir
    · rw [hf.inode m hl.1 (by simpa using hmn)]
      exact htidy

theorem step (h : Enclosed start root kept base fs) {e : Event}
    (hs : fs.Completes (Request.Below root) e fs') : Enclosed start root kept base fs' := by
  obtain ⟨request, now, reply⟩ := e
  obtain ⟨hconf, hbelow, hanswer, hok⟩ := hs
  cases request with
  | getattr ino => exact Fs.getattr_unchanged hanswer ▸ h
  | readdir ino offset full => exact Fs.readdir_unchanged hanswer ▸ h
  | lookup p name => exact Fs.lookup_unchanged hanswer ▸ h
  | openFile ino flags uid gid => exact Fs.openFile_unchanged hanswer ▸ h
  | read ino offset size => exact Fs.read_unchanged hanswer ▸ h
  | create p name => exact h.create hconf.1 hconf.2 hbelow hok hanswer
  | mkdir p name => exact h.mkdir hconf.1 hconf.2 hbelow hok hanswer
  | rmdir p name => exact h.rmdir hconf.1 hconf.2 hbelow hok hanswer
  | write n offset data => exact h.write hconf.1 hconf.2 hbelow hok hanswer
  | unlink p name => exact h.unlink hconf.1 hconf.2 hbelow hok hanswer
  | setattr n mode size => exact h.setattr size hconf hanswer

end Enclosed

theorem Added.reachable_of {d d' : Disk} {p n q : ℕ} {e : DirEntry} (h : Added d d' p n e)
    (hq : d.Reachable q) : d'.Reachable q := by
  have hdirectory : ∀ r, d.IsDirectory r → d'.IsDirectory r := fun r hr =>
    ⟨h.live_of_live hr.1, by rw [h.isDir_eq hr.1]; exact hr.2⟩
  induction hq with
  | root hroot => exact .root (hdirectory 1 hroot)
  | child _ hmem hdir ih => exact .child ih (h.children_subset _ hmem) (hdirectory _ hdir)

/-- The blocks in use when an inode has just been made, without its own. -/
def Fs.baseOf (fs : Fs) (grown : List ℕ) (b : ℕ) : Prop :=
  b < 20480 ∧ fs.disk.bit b = true ∨ b ∈ grown

section Life

variable {fs fs₁ fs₂ fs₃ : Fs} {p n : ℕ} {e : DirEntry} {node : Inode} {slots : List DirEntry}
  {blocks grown : List ℕ}

theorem Enclosed.start (hc : Consistent fs) (hres : Reserved fs.disk) (ht : TreeSound fs.disk)
    (hp : fs.disk.Reachable p) (hb : Born fs fs₁ p n e node slots blocks grown)
    (ha : Added fs.disk fs₁.disk p n e) (hm : node.Mapped fs₁.disk) (htidy : node.Tidy) :
    Enclosed fs₁ n fs.disk.Live (fs.baseOf grown) fs₁ := by
  have hlive := ha.parent.1
  have htouched := hb.touched hc hlive hm
  have hf := hb.footprint
  have hnode : fs₁.disk.held n = blocks := by
    rw [ha.live.held, hb.inode, hb.nodeRefs]
  have hnew : ∀ m, ¬ fs.disk.Live m → fs₁.disk.Live m → m = n := by
    intro m hm hl
    by_contra hmn
    by_cases hmp : m = p
    · exact hm (hmp ▸ hlive)
    · exact hm ((ha.others m hmp hmn).live.mp hl)
  have hnothing : ∀ q, ¬ fs.disk.Live q → ∀ m ∈ fs₁.disk.children q, ¬ fs.disk.Live m := by
    intro q hq m hmem
    have hqp : q ≠ p := fun heq => hq (heq ▸ hlive)
    rw [ha.children_other hqp, Disk.children, Disk.listed_of_not_isDirectory fun hdir => hq hdir.1]
      at hmem
    simp at hmem
  have hother : ∀ m, ¬ fs.disk.Live m → m ≠ n → fs₁.disk.held m = [] := fun m hm hmn =>
    Disk.held_of_not_live fun hl => hmn (hnew m hm hl)
  have hbit : ∀ b < 20480, fs₁.disk.bit b = true ↔ b ∈ blocks ∨ b ∈ grown ∨ fs.disk.bit b = true := by
    intro b hlt
    rw [hf.bit b hlt]
    simp [or_assoc]
  refine ⟨hb.consistent, ⟨fun m => ha.live_of_live, ha.fresh, ⟨p, hlive, ha.reachable_of hp,
    ha.children_self.mem_iff.mpr List.mem_cons_self⟩, hnothing⟩, htouched.reserved hc hres,
    ha.treeSound ht, rfl, fun m _ => ⟨Iff.rfl, fun _ => rfl, fun _ => rfl⟩, fun m _ => rfl,
    ⟨fun b => ?_, fun b hbase m hm hmem => ?_⟩, hnothing, fun m hm hl => hnew m hm hl ▸ .refl,
    fun m hm hl => ?_⟩
  · have hfresh : ∀ b, b ∈ blocks ∨ b ∈ grown → b < 20480 := fun b hmem =>
      (hf.fresh b (List.mem_append.mpr hmem)).2.1
    constructor
    · rintro ⟨hlt, hused⟩
      rcases (hbit b hlt).mp hused with hmem | hmem | hold
      · exact Or.inr ⟨n, ha.fresh, hnode ▸ hmem⟩
      · exact Or.inl (Or.inr hmem)
      · exact Or.inl (Or.inl ⟨hlt, hold⟩)
    · rintro ((⟨hlt, hold⟩ | hmem) | ⟨m, hm, hmem⟩)
      · exact ⟨hlt, (hbit b hlt).mpr (Or.inr (Or.inr hold))⟩
      · have hlt := hfresh b (Or.inr hmem)
        exact ⟨hlt, (hbit b hlt).mpr (Or.inr (Or.inl hmem))⟩
      · by_cases hmn : m = n
        · rw [hmn, hnode] at hmem
          have hlt := hfresh b (Or.inl hmem)
          exact ⟨hlt, (hbit b hlt).mpr (Or.inl hmem)⟩
        · rw [hother m hm hmn] at hmem
          simp at hmem
  · by_cases hmn : m = n
    · rw [hmn, hnode] at hmem
      rcases hbase with ⟨-, hold⟩ | hgrown
      · rw [(hf.fresh b (List.mem_append_left _ hmem)).2.2.1] at hold
        cases hold
      · exact (List.nodup_append.mp hf.nodup).2.2 b hmem b hgrown rfl
    · rw [hother m hm hmn] at hmem
      simp at hmem
  · rw [hnew m hm hl, hb.inode]
    exact htidy

theorem Gone.held_eq {q c m : ℕ} {name : String} {now : Int64} {freed : List ℕ}
    (h : Gone fs fs₁ q c name now freed) (hc : Consistent fs) (hq : fs.disk.Live q) (hm : m ≠ c) :
    fs₁.disk.held m = fs.disk.held m := by
  by_cases hmq : m = q
  · have hne : q ≠ c := fun heq => hm (hmq.trans heq)
    have hlive : fs₁.disk.Live q := ⟨hq.1, by rw [h.inode hne]; exact hq.2⟩
    rw [hmq, hlive.held, h.refs hne, hq.held]
  · exact (h.touched hc hq).held_eq hc (by simp [hm, hmq])

end Life

section Life

variable {fs fs₁ fs₂ fs₃ : Fs} {p n : ℕ} {e : DirEntry} {node : Inode} {slots : List DirEntry}
  {blocks grown : List ℕ}

end Life

end SimpleFS
