import SimpleFS.Requests.Consistent

/-! What `create` and `mkdir` do: a new inode, then an entry for it in the parent directory. -/
namespace SimpleFS
open Scan Bitmap

/-- Inode `n` came into use with the blocks `blocks` and the slots `slots` in them, and directory
`p` got the entry `e`, in the block `grown` when its own slots were all taken. -/
structure Born (fs fs' : Fs) (p n : ℕ) (e : DirEntry) (node : Inode) (slots : List DirEntry)
    (blocks grown : List ℕ) : Prop where
  consistent : Consistent fs'
  inodeNo : InodeNo n
  unused : ¬ fs.disk.Live n
  footprint : Footprint fs fs' [n, p] (fs.disk.held p) (blocks ++ grown) []
  inode : fs'.disk.inode n = node
  nodeTable : node.table fs'.disk = slots
  nodeRefs : node.refs fs'.disk = blocks
  mode : (fs'.disk.inode p).mode = (fs.disk.inode p).mode
  nlink : (fs'.disk.inode p).nlink = (fs.disk.inode p).nlink
  indirectBlock : (fs'.disk.inode p).indirectBlock = (fs.disk.inode p).indirectBlock
  refs : ((fs'.disk.inode p).refs fs'.disk).Perm (fs.disk.held p ++ grown)
  mapped : (fs.disk.inode p).Mapped fs.disk → (fs'.disk.inode p).Mapped fs'.disk
  table : (fs'.disk.inode p).table fs'.disk = SlotTable.insert DirEntry.isEmpty e
    (List.replicate 14 .blank) ((fs.disk.inode p).table fs.disk)
  limit : grown ≠ [] → (fs.disk.inode p).blockCount.toNat < 10
  grown : grown.length ≤ 1

/-- A new inode was stored, and nothing else done to the inodes in use. -/
structure Stocked (fs fs' : Fs) (n : ℕ) (node : Inode) (slots : List DirEntry)
    (blocks : List ℕ) : Prop where
  consistent : Consistent fs'
  footprint : Footprint fs fs' [n] [] blocks []
  inode : fs'.disk.inode n = node
  refs : node.refs fs'.disk = blocks
  table : node.table fs'.disk = slots

namespace Stocked

theorem of_footprint {fs fs' : Fs} (hc : Consistent fs) {n : ℕ} {node : Inode}
    {slots : List DirEntry} {blocks : List ℕ} (hf : Footprint fs fs' [n] [] blocks [])
    (hinode : fs'.disk.inode n = node) (hrefs : node.refs fs'.disk = blocks)
    (htable : node.table fs'.disk = slots) : Stocked fs fs' n node slots blocks := by
  refine ⟨hc.node hf ?_, hf, hinode, hrefs, htable⟩
  rw [hinode, hrefs]

variable {fs fs' : Fs} {n p : ℕ} {node : Inode} {slots : List DirEntry} {blocks : List ℕ}

theorem untouched (h : Stocked fs fs' n node slots blocks) (hc : Consistent fs)
    (hp : fs.disk.Live p) (hne : p ≠ n) : Untouched fs.disk fs'.disk p :=
  h.footprint.untouched_of_live hc.owned hp (by simpa using hne) (by simp)

/-- The entry for the new inode is added to a directory in use. -/
theorem born (h : Stocked fs fs' n node slots blocks) (hc : Consistent fs) (hn : InodeNo n)
    (hunused : ¬ fs.disk.Live n) (hp : fs.disk.Live p) {fs'' : Fs} {dir' : Inode} {e : DirEntry}
    {grown : List ℕ} (ha : AddedEntry fs' fs'' (fs.disk.inode p) dir' e grown) :
    Born fs fs'' p n e node slots blocks grown := by
  have hne : p ≠ n := by
    rintro rfl
    exact hunused hp
  have hu := h.untouched hc hp hne
  have hp' : fs'.disk.Live p := hu.live.mpr hp
  rw [← hu.inode] at ha
  have hno := Consistent.toNat_inodeNo (d := fs'.disk) hp'.1
  have hf := ha.footprint
  have hdir := ha.inode
  rw [hno] at hf hdir
  rw [← hp'.held, hp'.held, hu.refs, ← hp.held] at hf
  have hkeep : ∀ b ∈ node.refs fs'.disk, fs''.disk.block b = fs'.disk.block b := by
    intro b hb
    rw [h.refs] at hb
    obtain ⟨hlow, hlt, hfree, hr⟩ := h.footprint.fresh b hb
    refine hf.block b (by omega) hr (fun hmem => ?_) fun hmem => ?_
    · simp [(hc.owned.range p b hmem).2.2.1] at hfree
    · have hbit := (hf.fresh b hmem).2.2.1
      rw [h.footprint.bit b hlt] at hbit
      simp [hb] at hbit
  have hblocks : node.refs fs''.disk = node.refs fs'.disk :=
    Inode.refs_congr fun hi => hkeep _ (Inode.indirectBlock_mem_refs hi)
  refine ⟨ha.consistent h.consistent hp', hn, hunused, ?_, ?_, ?_, ?_, ?_, ?_, ?_, ?_, ?_, ?_,
    fun hgrown => ?_, ha.length_new_le⟩
  · exact (h.footprint.mono (by simp) (List.nil_subset _)).trans_alloc
      (hf.mono (by simp) (List.Subset.refl _)) fun b hb => Or.inl hb
  · rw [hf.inode n hn (by simpa using hne.symm), h.inode]
  · rw [Inode.table, Inode.slots_congr hkeep, ← Inode.table, h.table]
  · rw [hblocks, h.refs]
  · rw [hdir, ha.mode, hu.inode]
  · rw [hdir, ha.nlink, hu.inode]
  · rw [hdir, ha.indirectBlock, hu.inode]
  · rw [hdir, hp.held, ← hu.refs]
    exact ha.refs_perm
  · intro hm
    rw [hdir]
    exact ha.mapped (hu.mapped hm)
  · rw [hdir, ha.table, hu.table]
  · rcases ha.grown with ⟨hnil, -⟩ | ⟨-, hcount, -⟩
    · exact absurd hnil hgrown
    · rwa [hu.inode] at hcount

end Stocked

/-- The inode that `create` stores. -/
def createdInode (n : ℕ) (now : Int64) : Inode :=
  { Inode.newFile n now with mode := sIfReg ||| 0o644 }

/-- The inode that `mkdir` stores. -/
def madeInode (n b : ℕ) (now : Int64) : Inode :=
  { Inode.newDir n now with
    directBlocks := (Inode.newDir n now).directBlocks.setIfInBounds 0 (.ofNat b)
    blockCount := 1
    size := .ofNat pageSize }

theorem isDir_createdInode (n : ℕ) (now : Int64) : (createdInode n now).isDir = false :=
  (by decide : ((sIfReg ||| 0o644) &&& sIfDir != 0) = false)

theorem isDir_madeInode (n b : ℕ) (now : Int64) : (madeInode n b now).isDir = true :=
  (by decide : ((sIfDir ||| 0o755) &&& sIfDir != 0) = true)

theorem nlink_createdInode (n : ℕ) (now : Int64) : (createdInode n now).nlink ≠ 0 :=
  (by decide : (1 : UInt16) ≠ 0)

theorem nlink_madeInode (n b : ℕ) (now : Int64) : (madeInode n b now).nlink ≠ 0 :=
  (by decide : (2 : UInt16) ≠ 0)

/-- The slots of a new directory. -/
def dots (n p : ℕ) : List DirEntry :=
  .new n "." true :: .new p ".." true :: List.replicate 13 .blank

theorem toNat_ofNat_of_inodeNo {n : ℕ} (hn : InodeNo n) : (UInt32.ofNat n).toNat = n := by
  rw [UInt32.toNat_ofNat', Nat.mod_eq_of_lt (by have := hn.le; omega)]

theorem Stocked.file {fs : Fs} (hc : Consistent fs) {n : ℕ} (hn : InodeNo n) (now : Int64) :
    Stocked fs ⟨fs.disk.putInode (createdInode n now), fs.sb⟩ n (createdInode n now) [] [] := by
  have hno : (createdInode n now).inodeNo.toNat = n := toNat_ofNat_of_inodeNo hn
  have hf := Footprint.putInode hc.sized hc.layout (i := createdInode n now) (by rwa [hno])
  have hinode := Disk.inode_putInode_self fs.disk (createdInode n now)
  rw [hno] at hf hinode
  have hrefs : (createdInode n now).refs (fs.disk.putInode (createdInode n now)) = [] := rfl
  have htable : (createdInode n now).table (fs.disk.putInode (createdInode n now)) = [] := rfl
  exact .of_footprint hc hf hinode hrefs htable

theorem blocks_madeInode {n b : ℕ} {now : Int64} {d : Disk} (h0 : b ≠ 0) (hlt : b < 20480) :
    (madeInode n b now).blocks d = [b] := by
  have hptr : (madeInode n b now).ptr d 0 = b := by
    rw [madeInode, Inode.ptr_set_direct (i := Inode.newDir n now) (d := d) (by decide)
      (by omega) (by decide) rfl, if_pos rfl]
  have hone : (madeInode n b now).blockCount.toNat = 1 := rfl
  rw [Inode.blocks, hone]
  simp [hptr, Inode.pointer, h0]

theorem Stocked.directory {fs fs₁ : Fs} (hc : Consistent fs) {n p b : ℕ} (hn : InodeNo n)
    (hf : Footprint fs fs₁ [] [] [b] []) (now : Int64) :
    Stocked fs ⟨(fs₁.disk.writeBlock b (Fs.dotsBlock n p)).putInode (madeInode n b now), fs₁.sb⟩ n
      (madeInode n b now) (dots n p) [b] := by
  obtain ⟨hlow, hlt, -, hr⟩ := hf.fresh b (by simp)
  have hno : (madeInode n b now).inodeNo.toNat = n := toNat_ofNat_of_inodeNo hn
  have hw := Footprint.writeBlock hf.sized hf.layout (Fs.dotsBlock n p) (Or.inl (by omega)) hlt hr
  have hput := Footprint.putInode hw.sized hw.layout (i := madeInode n b now) (by rwa [hno])
  have hinode := Disk.inode_putInode_self (fs₁.disk.writeBlock b (Fs.dotsBlock n p))
    (madeInode n b now)
  rw [hno] at hput hinode
  have hfoot := ((hf.mono (List.nil_subset _) (List.Subset.refl _)).trans_alloc
    (hw.mono (List.nil_subset [n]) (List.Subset.refl _)) (by simp)).trans_alloc hput (by simp)
  have hblocks : ∀ d : Disk, (madeInode n b now).blocks d = [b] := fun d =>
    blocks_madeInode (by omega) (by omega)
  have hrefs : ∀ d : Disk, (madeInode n b now).refs d = [b] := by
    intro d
    rw [Inode.refs, hblocks, if_pos (show (madeInode n b now).indirectBlock = 0 from rfl)]
    rfl
  have hblock : ((fs₁.disk.writeBlock b (Fs.dotsBlock n p)).putInode (madeInode n b now)).block b =
      Fs.dotsBlock n p := by
    rw [Disk.block_putInode _ (madeInode n b now) fun heq => hr ⟨n, hn, by rw [heq, hno]⟩,
      Disk.block_writeBlock_self]
  refine .of_footprint hc hfoot hinode (hrefs _) ?_
  rw [Inode.table, Inode.slots, hblocks, List.flatMap_singleton, hblock, map_fst_blockSlots_dots]
  rfl

/-- What a call of `create` that answers has done. -/
inductive CreateOutcome (fs : Fs) (p : ℕ) (name : String) (now : Int64) : Reply → Fs → Prop
  | found {slot} : dirFind fs.disk (fs.disk.inode p) name = some (some slot) →
      CreateOutcome fs p name now (.error .EEXIST) fs
  | noInode : (fs.disk.inode p).Lacks fs.disk name → (∀ n, 1000 ≤ n → n ≤ 2000 → fs.disk.Live n) →
      CreateOutcome fs p name now (.error .ENOSPC) fs
  | orphan {fs' n} : (fs.disk.inode p).Lacks fs.disk name → 1000 ≤ n → n ≤ 2000 →
      ¬ fs.disk.Live n → (∀ x ∈ (fs.disk.inode p).table fs.disk, x.isEmpty = false) →
      (fs'.Refuses ∨ 10 ≤ (fs.disk.inode p).blockCount.toNat) →
      Stocked fs fs' n (createdInode n now) [] [] →
      CreateOutcome fs p name now (.error .ENOSPC) fs'
  | created {fs' n grown} : (fs.disk.inode p).Lacks fs.disk name → 1000 ≤ n → n ≤ 2000 →
      (∀ m, 1000 ≤ m → m < n → fs.disk.Live m) →
      Born fs fs' p n (.new n name false) (createdInode n now) [] [] grown →
      CreateOutcome fs p name now (.created 1 (inodeToAttr (createdInode n now)) 0 n 0) fs'

theorem create_outcome {fs fs' : Fs} (hc : Consistent fs) {p : ℕ} (hp : fs.disk.Live p)
    {name : ByteArray} {now : ℕ → Int64} {reply : Reply} (hsafe : fs.StepSafe (.create p name))
    (h : fs.create p name now = some (reply, fs')) :
    CreateOutcome fs p (Fs.nameOr "unknown" name) (now 0) reply fs' := by
  have hplaced := hc.placed hp
  have h32 := Consistent.asU32_of_inodeNo hp.1
  rw [Fs.create, h32, hc.readInode hp.1, Option.bind_eq_bind, Option.bind_some] at h
  obtain ⟨found, hfind, h⟩ := Option.bind_eq_some_iff.mp h
  cases found with
  | some slot =>
    simp only [Option.isSome_some, if_true, Option.some.injEq, Prod.mk.injEq] at h
    obtain ⟨rfl, rfl⟩ := h
    exact .found hfind
  | none =>
    have hlacks := dirFind_eq_none hplaced.sized hplaced.onDisk hfind
    simp only [Option.isSome_none, Bool.false_eq_true, if_false] at h
    obtain ⟨number, hnumber, h⟩ := Option.bind_eq_some_iff.mp h
    rcases findInodeNo_cases hc (fun n h₁ h₂ => Or.inr (Or.inr ⟨h₁, h₂⟩)) (by decide) hnumber with
      ⟨rfl, hall⟩ | ⟨n, rfl, hlo, hhi, hunused, hleast⟩
    · simp only [Option.some.injEq, Prod.mk.injEq] at h
      obtain ⟨rfl, rfl⟩ := h
      exact .noInode hlacks hall
    · have hn : InodeNo n := Or.inr (Or.inr ⟨hlo, hhi⟩)
      have hne : p ≠ n := by
        rintro rfl
        exact hunused hp
      have hs := Stocked.file hc hn (now 0)
      have hu := hs.untouched hc hp hne
      have hplaced' := hs.consistent.placed (hu.live.mpr hp)
      have hused' := hs.consistent.owned.used (hu.live.mpr hp)
      rw [hu.inode] at hplaced' hused'
      have htable : (fs.disk.inode p).table (fs.disk.putInode (createdInode n (now 0))) =
          (fs.disk.inode p).table fs.disk := by
        rw [← hu.table, hu.inode]
      have hroom : fs.disk.Roomy (dirAsks fs.disk (fs.disk.inode p)) := by
        have hasks : fs.asks (.create p name) = dirAsks fs.disk (fs.disk.inode p) := by
          simp only [Fs.asks, h32]
          rw [show dirFind fs.disk (fs.disk.inode p) (Fs.nameOr "unknown" name) = some none from hfind,
            hnumber]
        rwa [Fs.StepSafe, hasks] at hsafe
      have hroom' := hs.footprint.roomy hroom
      rw [← dirAsks_congr htable] at hroom'
      have hstore : writeInode fs.disk fs.sb (createdInode n (now 0)) =
          some (fs.disk.putInode (createdInode n (now 0))) := by
        refine hc.sized.writeInode hc.layout ?_
        rw [show (createdInode n (now 0)).inodeNo.toNat = n from toNat_ofNat_of_inodeNo hn]
        exact hn.recordBlock_lt
      obtain ⟨d₁, hwrite, h⟩ := Option.bind_eq_some_iff.mp h
      obtain rfl : _ = d₁ := Option.some.inj (hstore.symm.trans hwrite)
      obtain ⟨⟨result, d₂, sb₂, dir'⟩, hadd, h⟩ := Option.bind_eq_some_iff.mp h
      cases dirAddEntry_outcome hplaced' hused' hs.consistent.owned.low hroom' hadd with
      | added _ ha =>
        simp only [Option.some.injEq, Prod.mk.injEq] at h
        obtain ⟨rfl, rfl⟩ := h
        exact .created hlacks hlo hhi hleast (hs.born hc hn hunused hp ha)
      | found hfind' =>
        refine absurd hfind' (Inode.Lacks.dirFind_ne hplaced'.sized hplaced'.onDisk ?_ _)
        rwa [Inode.Lacks, Inode.entries, htable]
      | noBlock _ hfull hr =>
        simp only [Option.some.injEq, Prod.mk.injEq] at h
        obtain ⟨rfl, rfl⟩ := h
        exact .orphan hlacks hlo hhi hunused (htable ▸ hfull) (Or.inl hr) hs
      | tooLarge _ hfull hcount =>
        simp only [Option.some.injEq, Prod.mk.injEq] at h
        obtain ⟨rfl, rfl⟩ := h
        exact .orphan hlacks hlo hhi hunused (htable ▸ hfull) (Or.inr hcount) hs

/-- What a call of `mkdir` has done: it answered, or it panicked when the parent directory had no
place for the entry. -/
inductive MkdirOutcome (fs : Fs) (p : ℕ) (name : String) (now : Int64) : Option Reply → Fs → Prop
  | found {slot} : dirFind fs.disk (fs.disk.inode p) name = some (some slot) →
      MkdirOutcome fs p name now (some (.error .EEXIST)) fs
  | noInode : (fs.disk.inode p).Lacks fs.disk name → (∀ n, 500 ≤ n → n ≤ 900 → fs.disk.Live n) →
      MkdirOutcome fs p name now (some (.error .ENOSPC)) fs
  | noBlock : (fs.disk.inode p).Lacks fs.disk name →
      allocateBlock fs.disk fs.sb = some (none, fs.disk, fs.sb) →
      MkdirOutcome fs p name now (some (.error .ENOSPC)) fs
  | made {fs' n b grown} : (fs.disk.inode p).Lacks fs.disk name → 500 ≤ n → n ≤ 900 →
      (∀ m, 500 ≤ m → m < n → fs.disk.Live m) →
      Born fs fs' p n (.new n name true) (madeInode n b now) (dots n p) [b] grown →
      MkdirOutcome fs p name now (some (.entry 1 (inodeToAttr (madeInode n b now)) 0)) fs'
  | stuck {fs' n b} : (fs.disk.inode p).Lacks fs.disk name → 500 ≤ n → n ≤ 900 →
      ¬ fs.disk.Live n → (∀ x ∈ (fs.disk.inode p).table fs.disk, x.isEmpty = false) →
      (fs'.Refuses ∨ 10 ≤ (fs.disk.inode p).blockCount.toNat) →
      Stocked fs fs' n (madeInode n b now) (dots n p) [b] →
      MkdirOutcome fs p name now none fs'

theorem mkdirAttempt_outcome {fs fs' : Fs} (hc : Consistent fs) {p : ℕ} (hp : fs.disk.Live p)
    {name : ByteArray} {now : ℕ → Int64} {reply : Option Reply} (hsafe : fs.StepSafe (.mkdir p name))
    (h : fs.mkdirAttempt p name now = some (reply, fs')) :
    MkdirOutcome fs p (Fs.nameOr "unknown" name) (now 0) reply fs' := by
  have hplaced := hc.placed hp
  have h32 := Consistent.asU32_of_inodeNo hp.1
  rw [Fs.mkdirAttempt, h32, hc.readInode hp.1, Option.bind_eq_bind, Option.bind_some] at h
  obtain ⟨found, hfind, h⟩ := Option.bind_eq_some_iff.mp h
  cases found with
  | some slot =>
    simp only [Option.isSome_some, if_true, Option.some.injEq, Prod.mk.injEq] at h
    obtain ⟨rfl, rfl⟩ := h
    exact .found hfind
  | none =>
    have hlacks := dirFind_eq_none hplaced.sized hplaced.onDisk hfind
    simp only [Option.isSome_none, Bool.false_eq_true, if_false] at h
    obtain ⟨number, hnumber, h⟩ := Option.bind_eq_some_iff.mp h
    rcases findInodeNo_cases hc (fun n h₁ h₂ => Or.inr (Or.inl ⟨h₁, h₂⟩)) (by decide) hnumber with
      ⟨rfl, hall⟩ | ⟨n, rfl, hlo, hhi, hunused, hleast⟩
    · simp only [Option.some.injEq, Prod.mk.injEq] at h
      obtain ⟨rfl, rfl⟩ := h
      exact .noInode hlacks hall
    · have hn : InodeNo n := Or.inr (Or.inl ⟨hlo, hhi⟩)
      have hne : p ≠ n := by
        rintro rfl
        exact hunused hp
      have hroom : fs.disk.Roomy (dirAsks fs.disk (fs.disk.inode p) + 1) := by
        have hasks : fs.asks (.mkdir p name) = 1 + dirAsks fs.disk (fs.disk.inode p) := by
          simp only [Fs.asks, h32]
          rw [show dirFind fs.disk (fs.disk.inode p) (Fs.nameOr "unknown" name) = some none from hfind,
            hnumber]
        rwa [Fs.StepSafe, hasks, Nat.add_comm] at hsafe
      obtain ⟨⟨dataBlock, d₁, sb₁⟩, halloc, h⟩ := Option.bind_eq_some_iff.mp h
      cases dataBlock with
      | none =>
        obtain ⟨rfl, rfl⟩ := allocateBlock_eq_none hc.sized halloc
        simp only [Option.some.injEq, Prod.mk.injEq] at h
        obtain ⟨rfl, rfl⟩ := h
        exact .noBlock hlacks halloc
      | some b =>
        obtain ⟨-, hf, hroom₁⟩ := Footprint.of_allocateBlock hc.sized hc.layout hc.owned.low hroom
          halloc
        have hb := hf.fresh b (by simp)
        have hs := Stocked.directory (p := p) hc hn hf (now 0)
        have hu := hs.untouched hc hp hne
        have hplaced' := hs.consistent.placed (hu.live.mpr hp)
        have hused' := hs.consistent.owned.used (hu.live.mpr hp)
        rw [hu.inode] at hplaced' hused'
        have htable : (fs.disk.inode p).table ((d₁.writeBlock b (Fs.dotsBlock n p)).putInode
            (madeInode n b (now 0))) = (fs.disk.inode p).table fs.disk := by
          rw [← hu.table, hu.inode]
        have hno : (madeInode n b (now 0)).inodeNo.toNat = n := toNat_ofNat_of_inodeNo hn
        have hroom' : ((d₁.writeBlock b (Fs.dotsBlock n p)).putInode
            (madeInode n b (now 0))).Roomy (dirAsks fs.disk (fs.disk.inode p)) :=
          (hroom₁.writeBlock _ (Or.inl (by omega))).congr fun c hc' => Disk.bit_putInode _ _ hc'
        rw [← dirAsks_congr htable] at hroom'
        have hsized : (d₁.writeBlock b (Fs.dotsBlock n p)).Sized := hf.sized.writeBlock hb.2.1 _
        have hstore : writeInode (d₁.writeBlock b (Fs.dotsBlock n p)) sb₁ (madeInode n b (now 0)) =
            some ((d₁.writeBlock b (Fs.dotsBlock n p)).putInode (madeInode n b (now 0))) := by
          refine hsized.writeInode hf.layout ?_
          rw [hno]
          exact hn.recordBlock_lt
        obtain ⟨d₂, hwrite, h⟩ := Option.bind_eq_some_iff.mp h
        obtain rfl : _ = d₂ := Option.some.inj (hstore.symm.trans hwrite)
        obtain ⟨⟨result, d₃, sb₃, dir'⟩, hadd, h⟩ := Option.bind_eq_some_iff.mp h
        cases dirAddEntry_outcome hplaced' hused' hs.consistent.owned.low hroom' hadd with
        | added _ ha =>
          simp only [Option.some.injEq, Prod.mk.injEq] at h
          obtain ⟨rfl, rfl⟩ := h
          exact .made hlacks hlo hhi hleast (hs.born hc hn hunused hp ha)
        | found hfind' =>
          refine absurd hfind' (Inode.Lacks.dirFind_ne hplaced'.sized hplaced'.onDisk ?_ _)
          rwa [Inode.Lacks, Inode.entries, htable]
        | noBlock _ hfull hr =>
          simp only [Option.some.injEq, Prod.mk.injEq] at h
          obtain ⟨rfl, rfl⟩ := h
          exact .stuck hlacks hlo hhi hunused (htable ▸ hfull) (Or.inl hr) hs
        | tooLarge _ hfull hcount =>
          simp only [Option.some.injEq, Prod.mk.injEq] at h
          obtain ⟨rfl, rfl⟩ := h
          exact .stuck hlacks hlo hhi hunused (htable ▸ hfull) (Or.inr hcount) hs

end SimpleFS
