import SimpleFS.Requests.Naming
import SimpleFS.Requests.Space

/-! The blocks of the inode records and those of the data. The table that formatting reserves holds
the record of the root, and none of the numbers that `create` and `mkdir` hand out. -/
namespace SimpleFS
open Runs Bitmap

/-- The inode numbers that `create` and `mkdir` have handed out. -/
def noteHanded (_ : Fs) (e : Event) (_ : Fs) (handed : List ℕ) : List ℕ :=
  match e.naming with
  | some (_, _, some n) => n :: handed
  | _ => handed

/-- The root, and the inodes that were handed out and not deleted since. -/
structure Fs.InUse (fs : Fs) (handed : List ℕ) (n : ℕ) : Prop where
  number : n = 1 ∨ n ∈ handed
  nlink : (fs.disk.inode n).nlink ≠ 0

/-- The block of the record of inode `n`. -/
abbrev Fs.recordAt (fs : Fs) (n : ℕ) : ℕ := (inodeBlockLocation fs.sb n).1

/-- The records of the inodes in use are in blocks of the table, which nobody gets and nobody has:
so data does not change records, and records do not change data. -/
structure Apart (fs : Fs) (handed : List ℕ) : Prop where
  inTable : ∀ n, fs.InUse handed n → fs.sb.inodeTableStart.toNat ≤ fs.recordAt n ∧
    fs.recordAt n < fs.sb.inodeTableStart.toNat + fs.sb.inodeTableBlocks.toNat
  used : ∀ n, fs.InUse handed n → fs.disk.bit (fs.recordAt n) = true
  kept : ∀ n, fs.InUse handed n → ∀ b d sb,
    allocateBlock fs.disk fs.sb = some (some b, d, sb) → b ≠ fs.recordAt n
  unreferenced : ∀ n, fs.InUse handed n → ∀ m, fs.disk.Live m →
    fs.recordAt n ∉ (fs.disk.inode m).refs fs.disk
  data : ∀ n, fs.InUse handed n → ∀ m, fs.disk.Live m → ∀ b ∈ (fs.disk.inode m).refs fs.disk,
    ∀ buf, (fs.disk.writeBlock b buf).inode n = fs.disk.inode n
  records : ∀ i : Inode, fs.InUse handed i.inodeNo.toNat → ∀ d, writeInode fs.disk fs.sb i = some d →
    ∀ m, fs.disk.Live m → ∀ b ∈ (fs.disk.inode m).refs fs.disk, d.block b = fs.disk.block b

/-- A request other than `create` and `mkdir`, which the kernel sends and gets answered. -/
structure Fs.StepsPlain (fs : Fs) (e : Event) (fs' : Fs) : Prop where
  conforms : fs.Conforms e.request
  answers : fs.handle e.now e.request = some (e.reply, fs')
  not_create : ∀ p name, e.request ≠ .create p name
  not_mkdir : ∀ p name, e.request ≠ .mkdir p name

/-- Only the root is in use, and it lists nothing. -/
structure RootAlone (fs : Fs) : Prop extends Healthy fs where
  root : fs.disk.IsDirectory 1
  alone : ∀ n, fs.disk.Live n → n = 1
  empty : fs.disk.listed 1 = []

theorem Formatted.rootAlone {d : Disk} {now : Int64} {taken : ℕ → Bool} {fs : Fs}
    (h : Formatted d now taken fs) (hb : d.Blank) : RootAlone fs := by
  refine ⟨h.healthy hb, h.isDirectory_root, fun n hn => (h.live_iff hb).mp hn, ?_⟩
  rw [h.isDirectory_root.listed, h.entries_root, List.filter_eq_nil_iff]
  intro e he
  rw [DirEntry.ordinary_iff]
  rcases List.mem_pair.mp he with rfl | rfl
  · simp [(DirEntry.named_new_dot 1).1]
  · simp [(DirEntry.named_new_dotdot 1).2]

namespace RootAlone

variable {fs fs' : Fs}

theorem of_sameTree (h : RootAlone fs) (hs : SameTree fs.disk fs'.disk) (hh : Healthy fs')
    (hlive : ∀ n, fs'.disk.Live n → fs.disk.Live n) : RootAlone fs' :=
  ⟨hh, (hs.isDirectory 1).mpr h.root, fun n hn => h.alone n (hlive n hn),
    (hs.listed 1).trans h.empty⟩

/-- Nothing can be deleted. -/
theorem not_names (h : RootAlone fs) {p : ℕ} (hp : fs.disk.IsDirectory p) {name : ByteArray}
    (hname : EntryName name) {e : DirEntry} : ¬ Names fs.disk p (Fs.nameOr "" name) e := by
  intro hn
  have hlisted := hn.mem_listed hp (hn.proper hname)
  rw [h.alone p hp.1, h.empty] at hlisted
  cases hlisted

theorem step (h : RootAlone fs) {e : Event} (hs : fs.StepsPlain e fs') : RootAlone fs' := by
  obtain ⟨request, now, reply⟩ := e
  obtain ⟨hconf, hanswer, hcreate, hmkdir⟩ := hs
  have hc := h.toConsistent
  cases request with
  | getattr ino => exact Fs.getattr_unchanged hanswer ▸ h
  | readdir ino offset full => exact Fs.readdir_unchanged hanswer ▸ h
  | lookup p name => exact Fs.lookup_unchanged hanswer ▸ h
  | openFile ino flags uid gid => exact Fs.openFile_unchanged hanswer ▸ h
  | read ino offset size => exact Fs.read_unchanged hanswer ▸ h
  | create p name => exact absurd rfl (hcreate p name)
  | mkdir p name => exact absurd rfl (hmkdir p name)
  | unlink p name =>
    obtain ⟨hp, hname⟩ : fs.disk.IsDirectory p ∧ EntryName name := hconf
    cases unlink_outcome hc hp.1 hp.2 (h.tree.live_of_nameOr hp hname) hanswer with
    | missing _ => exact h
    | isDir _ _ => exact h
    | gone hn _ _ => exact absurd hn (h.not_names hp hname)
  | rmdir p name =>
    obtain ⟨hp, hname⟩ : fs.disk.IsDirectory p ∧ EntryName name := hconf
    cases rmdir_outcome hc hp.1 (h.tree.live_of_nameOr hp hname) hanswer with
    | missing _ => exact h
    | notDir _ _ => exact h
    | notEmpty _ _ => exact h
    | gone hn _ _ _ => exact absurd hn (h.not_names hp hname)
  | write n offset data =>
    obtain ⟨hn, hfile⟩ : fs.disk.Live n ∧ (fs.disk.inode n).isDir = false := hconf
    rw [h.alone n hn, h.root.2] at hfile
    cases hfile
  | setattr n mode size =>
    have hn : fs.disk.Live n := hconf
    have ha := @setattr_outcome fs fs' n hc hn mode size now reply hanswer
    refine h.of_sameTree (ha.sameTree hc hn) ((Change.attributed hn ha).healthy h.toHealthy)
      fun m hm => ?_
    by_cases hmn : m = n
    · exact hmn ▸ hn
    · exact (ha.footprint.live_iff (by simpa using hmn)).mp hm

end RootAlone

theorem Consistent.recordAt {fs : Fs} (hc : Consistent fs) {n : ℕ} (hn : n < 2 ^ 32) :
    fs.recordAt n = recordBlock n := by
  rw [Fs.recordAt, hc.layout.inodeBlockLocation hn]

/-- The record of the root is apart from all data. -/
theorem Consistent.apart_of_root {fs : Fs} (hc : Consistent fs) {handed : List ℕ}
    (h : ∀ n, fs.InUse handed n → n = 1) : Apart fs handed := by
  have hrecord : ∀ n, fs.InUse handed n → fs.recordAt n = 6 := fun n hn => by
    rw [h n hn, hc.recordAt (by decide)]
    rfl
  have hrange : ∀ m, fs.disk.Live m → ∀ b ∈ (fs.disk.inode m).refs fs.disk, 31 ≤ b := by
    intro m hm b hb
    exact (hc.owned.range m b (hm.held ▸ hb)).1
  have hstart : fs.sb.inodeTableStart.toNat = 6 := by
    rw [hc.layout.inodeTableStart]
    rfl
  constructor
  · intro n hn
    rw [hrecord n hn, hstart, hc.layout.inodeTableBlocks]
    decide
  · intro n hn
    rw [hrecord n hn]
    exact hc.owned.low 6 (by decide)
  · intro n hn b d sb halloc
    rw [hrecord n hn]
    rcases allocateBlock_cases hc.sized halloc with ⟨hnone, -⟩ | ⟨c, hsome, -, hfree, -⟩
    · cases hnone
    · obtain rfl := Option.some.inj hsome
      have := hfree.low hc.owned.low
      omega
  · intro n hn m hm hmem
    rw [hrecord n hn] at hmem
    have := hrange m hm 6 hmem
    omega
  · intro n hn m hm b hb buf
    refine Disk.inode_writeBlock_of_ne _ _ ?_
    have := hrange m hm b hb
    rw [h n hn]
    show 6 ≠ b
    omega
  · intro i hi d hstore m hm b hb
    have hone := h _ hi
    rw [hc.sized.writeInode hc.layout (by rw [hone]; decide)] at hstore
    obtain rfl := Option.some.inj hstore
    refine Disk.block_putInode _ _ ?_
    have := hrange m hm b hb
    rw [hone]
    show b ≠ 6
    omega

/-- What the steps of a run keep: the root is in use, and the numbers handed out are others. -/
structure HandsOut (fs : Fs) (handed : List ℕ) : Prop extends Healthy fs where
  numbers : ∀ n ∈ handed, InodeNo n ∧ n ≠ 1

theorem HandsOut.step {fs fs' : Fs} {handed : List ℕ} (h : HandsOut fs handed) {e : Event}
    (hs : fs.Steps e fs') : HandsOut fs' (noteHanded fs e fs' handed) := by
  refine ⟨hs.healthy h.toHealthy, ?_⟩
  have hchange := hs.nameChange h.toHealthy
  unfold noteHanded
  generalize e.naming = naming at hchange
  cases hchange with
  | kept _ => exact h.numbers
  | taken _ _ _ _ _ => exact h.numbers
  | given _ _ ha _ =>
    intro m hm
    rcases List.mem_cons.mp hm with rfl | hm
    · exact ⟨ha.live.1, ha.ne_root⟩
    · exact h.numbers m hm

/-- No number that is handed out has its record in the table. -/
theorem HandsOut.apart_iff {fs : Fs} {handed : List ℕ} (h : HandsOut fs handed) :
    Apart fs handed ↔ ∀ n ∈ handed, (fs.disk.inode n).nlink = 0 := by
  have hc := h.toConsistent
  constructor
  · intro happart n hn
    by_contra hlink
    obtain ⟨hno, hne⟩ := h.numbers n hn
    have hlt := (happart.inTable n ⟨Or.inr hn, hlink⟩).2
    have h31 : fs.sb.inodeTableStart.toNat + fs.sb.inodeTableBlocks.toNat = 31 := by
      rw [hc.layout.inodeTableStart, hc.layout.inodeTableBlocks]
      rfl
    rw [h31, hc.recordAt (by have := hno.le; omega), recordBlock] at hlt
    unfold InodeNo at hno
    omega
  · intro hnone
    refine hc.apart_of_root fun n hn => hn.number.resolve_right fun hmem => ?_
    exact hn.nlink (hnone n hmem)

/-- Records and data are apart in every run without `create` and `mkdir`; in any run, they are apart
exactly when no inode is in use but the root. -/
theorem apart_of_run {now : Int64} {start : Fs} (hmount : mount [] now = some start) :
    (∀ fs, Reach Fs.StepsPlain start fs → Apart fs []) ∧
    ∀ fs handed, Run Fs.Steps noteHanded start [] fs handed →
      (Apart fs handed ↔ ∀ n ∈ handed, (fs.disk.inode n).nlink = 0) := by
  obtain ⟨fs₀, hfs₀, hformat⟩ := mount_nil now
  obtain rfl : start = fs₀ := Option.some.inj (hmount.symm.trans hfs₀)
  constructor
  · intro fs hrun
    have halone : RootAlone fs := hrun.invariant_state (hformat.rootAlone Disk.blank_empty)
      fun _ _ _ hp hstep => hp.step hstep
    exact halone.toConsistent.apart_of_root fun n hn =>
      hn.number.resolve_right List.not_mem_nil
  · intro fs handed hrun
    have hkeeps : HandsOut fs handed := hrun.invariant
      ⟨hformat.healthy Disk.blank_empty, by simp⟩ fun _ _ _ _ hp hstep => hp.step hstep
    exact hkeeps.apart_iff

/-- In a new image the record of the root is apart from the data. -/
theorem apart_of_run_root : ∃ fs, mount [] 0 = some fs ∧ Apart fs [] := by
  obtain ⟨fs, hmount, -⟩ := mount_nil 0
  exact ⟨fs, hmount, (apart_of_run hmount).1 fs .start⟩

/-- The first file gets inode 1000, whose record is in the unused block 172. -/
theorem not_apart_create : ∃ (start fs : Fs) (handed : List ℕ), mount [] 0 = some start ∧
    Run Fs.Steps noteHanded start [] fs handed ∧ fs.InUse handed 1000 ∧ fs.recordAt 1000 = 172 ∧
    fs.disk.bit 172 = false ∧ ¬ Apart fs handed := by
  obtain ⟨start, hmount, hformat⟩ := mount_nil 0
  obtain ⟨hsafe, fs, hcreate, hb⟩ := hformat.create Disk.blank_empty entryName_a fun _ => 0
  have hstep : start.Steps ⟨.create 1 "a".toByteArray, fun _ => 0, _⟩ fs :=
    ⟨⟨hformat.isDirectory_root, entryName_a⟩, hsafe, hcreate⟩
  have huse : fs.InUse [1000] 1000 := by
    refine ⟨Or.inr (List.mem_singleton_self _), ?_⟩
    rw [hb.inode]
    exact nlink_createdInode _ _
  have hrecord : fs.recordAt 1000 = 172 := by
    rw [hb.consistent.recordAt (by decide)]
    rfl
  have hfree : fs.disk.bit 172 = false := by
    rw [hb.footprint.bit 172 (by decide), hformat.bit 172 (by decide)]
    rfl
  refine ⟨start, fs, [1000], hmount, .step _ .start hstep, huse, hrecord, hfree, fun h => ?_⟩
  have hused := h.used 1000 huse
  rw [hrecord, hfree] at hused
  cases hused

end SimpleFS
