import Mathlib.Order.Interval.Finset.Nat
import SimpleFS.Foundation.FiniteMap
import SimpleFS.Foundation.Runs
import SimpleFS.Requests.Space

/-! A directory as a finite map from names to inode numbers and types, under any calls of
`dir_add_entry` and `dir_remove_entry`. -/
namespace SimpleFS
open Runs FiniteMap

/-- The inode number and the type that an entry gives for its name. -/
def DirEntry.binding (e : DirEntry) : UInt32 × UInt8 := (e.inode, e.entryType)

abbrev NameMap := String → Option (UInt32 × UInt8)

/-- The map of a new directory. -/
def NameMap.dots (n p : ℕ) : NameMap :=
  Function.update (Function.update (fun _ => none) ".." (some (.ofNat p, 2))) "."
    (some (.ofNat n, 2))

namespace Inode

variable {d : Disk} {dir : Inode} {m : NameMap} {name : String}

/-- The entries of the directory make the map `m`. -/
def Binds (d : Disk) (dir : Inode) (m : NameMap) : Prop :=
  Lists DirEntry.nameStr DirEntry.binding (dir.entries d) m

theorem Binds.readable (h : dir.Binds d m) : ∀ e ∈ dir.entries d, e.nameStr ≠ none := by
  intro e he
  obtain ⟨k, hk, -⟩ := h.sound e he
  simp [hk]

theorem Binds.lacks_iff (h : dir.Binds d m) : dir.Lacks d name ↔ m name = none := by
  rw [h.eq_none_iff]
  refine forall₂_congr fun e he => ?_
  simp [DirEntry.named, h.readable e he]

/-- The first slot with a name, among the entries. -/
theorem find?_slots (d : Disk) (dir : Inode) (name : String) :
    ((dir.slots d).find? fun s => !s.1.isEmpty && s.1.named name).map Prod.fst =
      (dir.entries d).find? fun e => e.nameStr == some name := by
  rw [entries, SlotTable.live, table, List.find?_filter, List.find?_map]
  simp only [Function.comp_def, Bool.decide_and, Bool.decide_eq_true]
  rfl

theorem Binds.dirFind (h : dir.Binds d m) (hd : d.Sized) (hb : dir.OnDisk d) (name : String) :
    ∃ found, dirFind d dir name = some found ∧ found.map (fun s => s.1.binding) = m name := by
  refine ⟨_, dirFind_of_readable hd hb h.readable, ?_⟩
  rw [← h.find?_map name, ← find?_slots, Option.map_map]
  rfl

theorem Binds.dirLookup (h : dir.Binds d m) (hd : d.Sized) (hb : dir.OnDisk d) :
    ∃ listed, dirLookup d dir = some listed ∧
      Lists (fun s : Slot => s.1.nameStr) (fun s => s.1.binding) listed m := by
  refine ⟨_, dirLookup_eq hd hb, ?_⟩
  have hentries : dir.entries d = ((dir.slots d).filter fun s => !s.1.isEmpty).map Prod.fst := by
    rw [entries, SlotTable.live, table, List.filter_map]
    rfl
  rw [Binds, hentries] at h
  refine ⟨fun s hs => h.sound s.1 (List.mem_map_of_mem hs), ?_, fun k hk => ?_⟩
  · have hn := h.nodup
    rwa [List.map_map] at hn
  · obtain ⟨e, he, hkey⟩ := h.total k hk
    obtain ⟨s, hs, rfl⟩ := List.mem_map.mp he
    exact ⟨s, hs, hkey⟩

theorem binds_dots {n p : ℕ} (h : dir.table d = SimpleFS.dots n p) :
    dir.Binds d (NameMap.dots n p) := by
  have hentries : dir.entries d = [.new n "." true, .new p ".." true] := by
    rw [entries, h]
    simp [SimpleFS.dots, SlotTable.live, DirEntry.isEmpty_new]
  have hnil : Lists DirEntry.nameStr DirEntry.binding [] fun _ => none :=
    ⟨by simp, List.nodup_nil, by simp⟩
  have hone := hnil.cons (x := .new p ".." true) (k := "..")
    (DirEntry.nameStr_new_of_le p true (by decide)) rfl
  rw [Binds, hentries]
  exact hone.cons (DirEntry.nameStr_new_of_le n true (by decide)) rfl

end Inode

theorem AddedEntry.binds {fs fs' : Fs} {dir dir' : Inode} {e : DirEntry} {new : List ℕ}
    {m : NameMap} {name : String} (h : AddedEntry fs fs' dir dir' e new)
    (hm : dir.Binds fs.disk m) (he : e.isEmpty = false) (hname : e.nameStr = some name)
    (hnone : m name = none) : dir'.Binds fs'.disk (Function.update m name (some e.binding)) :=
  (hm.cons hname hnone).perm (perm_entries_insert he h.table)

theorem RemovedEntry.binds {fs fs' : Fs} {dir dir' : Inode} {name : String} {now : Int64}
    {m : NameMap} (h : RemovedEntry fs fs' dir dir' name now) (hm : dir.Binds fs.disk m) :
    dir'.Binds fs'.disk (Function.update m name none) := by
  rw [Inode.Binds, Inode.entries, h.table, SlotTable.live_clear DirEntry.isEmpty_cleared]
  exact hm.eraseP name

/-- A directory that is worked on: the file system, and the copy of its inode in memory. -/
structure OpenDir where
  fs : Fs
  dir : Inode

inductive DirCall
  | add (name : String) (child : UInt32) (isDir : Bool)
  | remove (name : String)

def DirCall.name : DirCall → String
  | add name _ _ | remove name => name

/-- The names that the calls may be given. -/
def FittingName (name : String) : Prop := name ≠ "" ∧ name.toByteArray.size ≤ maxNameLen

def OpenDir.call (s : OpenDir) (now : Int64) : DirCall → Option (Except String Unit × OpenDir)
  | .add name child isDir => do
    let (r, d, sb, dir) ← dirAddEntry s.fs.disk s.fs.sb s.dir name child.toNat isDir now
    some (r, ⟨⟨d, sb⟩, dir⟩)
  | .remove name => do
    let (r, d, dir) ← dirRemoveEntry s.fs.disk s.fs.sb s.dir name now
    some (r, ⟨⟨d, s.fs.sb⟩, dir⟩)

/-- A call, the time at which it is made and its result. -/
structure DirEvent where
  call : DirCall
  now : Int64
  result : Except String Unit

structure OpenDir.Steps (s : OpenDir) (e : DirEvent) (s' : OpenDir) : Prop where
  fitting : FittingName e.call.name
  returns : s.call e.now e.call = some (e.result, s')

/-- The map after a call: what was added last and not removed. -/
def noteCall (_ : OpenDir) (e : DirEvent) (_ : OpenDir) (m : NameMap) : NameMap :=
  match e.result, e.call with
  | .error _, _ => m
  | .ok _, .add name child isDir =>
    Function.update m name (some (child, if isDir then 2 else 1))
  | .ok _, .remove name => Function.update m name none

/-- What the directory functions count on: every block has one owner, the superblock in memory is
the one on the disk, the free count is right, and of the blocks that are handed out next, as many as
a directory can still get hold no inode records. -/
structure DirGround (fs : Fs) : Prop extends Consistent fs where
  synced : fs.Synced
  counted : fs.sb.freeBlocks.toNat =
    ((Finset.range 20480).filter fun b => fs.disk.bit b = false).card
  roomy : fs.disk.Roomy 9

/-- Where the record blocks are taken, none of them is handed out. -/
theorem BlockSound.dirGround {fs : Fs} (h : BlockSound fs) : DirGround fs :=
  ⟨h.toConsistent, h.synced, h.counted, h.reserved.roomy 9⟩

/-- Directory `n`, with the parent `p`, was just made. -/
inductive JustMade : Fs → ℕ → ℕ → Prop
  | format {d : Disk} {now : Int64} {fs : Fs} : d.Sized → formatNewFs d now = some fs →
      JustMade fs 1 1
  | mkdir {fs fs' : Fs} {p : ℕ} {name : ByteArray} {now : ℕ → Int64} {ttl : ℕ} {attr : FileAttr}
      {generation : ℕ} : Consistent fs → fs.StepSafe (.mkdir p name) → fs.disk.Live p →
      fs.mkdir p name now = some (.entry ttl attr generation, fs') → JustMade fs' attr.ino p

theorem JustMade.new {fs : Fs} {n p : ℕ} (h : JustMade fs n p) :
    fs.disk.Live n ∧ (fs.disk.inode n).table fs.disk = dots n p ∧
      (fs.disk.inode n).Mapped fs.disk ∧ (fs.disk.inode n).blockCount = 1 := by
  cases h with
  | @format d now _ hd hformat =>
    obtain ⟨fs', hspec, hf⟩ := formatNewFs_spec hd now
    obtain rfl : fs = fs' := Option.some.inj (hformat.symm.trans hspec)
    refine ⟨hf.live_root, hf.table_root, ?_, by rw [hf.root]; rfl⟩
    rw [Inode.mapped_iff_length_blocks, hf.blocks_root, hf.root]
    rfl
  | mkdir hc hsafe hp hmkdir =>
    have houtcome := mkdirAttempt_outcome hc hp hsafe (Fs.answered_eq_some.mp hmkdir)
    cases houtcome with
    | @made _ n b _ _ _ _ _ hborn =>
      rw [show (inodeToAttr (madeInode n b _)).ino = n from toNat_ofNat_of_inodeNo hborn.inodeNo,
        hborn.inode]
      exact ⟨⟨hborn.inodeNo, by rw [hborn.inode]; exact nlink_madeInode _ _ _⟩, hborn.nodeTable,
        hborn.mapped_madeInode, rfl⟩

/-- What every call keeps: directory `n` is worked on, it makes the map `m`, and it can still grow to
ten blocks. -/
structure OpenDir.Keeps (n : ℕ) (s : OpenDir) (m : NameMap) : Prop where
  consistent : Consistent s.fs
  synced : s.fs.Synced
  counted : s.fs.balance = 20480
  live : s.fs.disk.Live n
  stored : s.fs.disk.inode n = s.dir
  mapped : s.dir.Mapped s.fs.disk
  small : s.dir.blockCount.toNat ≤ 10
  roomy : s.fs.disk.Roomy (10 - s.dir.blockCount.toNat)
  binds : s.dir.Binds s.fs.disk m

theorem JustMade.keeps {fs : Fs} {n p : ℕ} (h : JustMade fs n p) (hg : DirGround fs) :
    OpenDir.Keeps n ⟨fs, fs.disk.inode n⟩ (.dots n p) := by
  obtain ⟨hlive, htable, hmapped, hcount⟩ := h.new
  have hone : (fs.disk.inode n).blockCount.toNat = 1 := hcount ▸ rfl
  refine ⟨hg.toConsistent, hg.synced, counted_iff_balance.mp hg.counted, hlive, rfl, hmapped, ?_, ?_,
    Inode.binds_dots htable⟩
  · exact hone.le.trans (by decide)
  · rw [hone]
    exact hg.roomy

namespace OpenDir.Keeps

variable {n : ℕ} {s : OpenDir} {m : NameMap}

theorem placed (h : s.Keeps n m) : Placed s.fs s.dir :=
  h.stored ▸ h.consistent.placed h.live

theorem asks (h : s.Keeps n m) : s.fs.disk.Roomy (dirAsks s.fs.disk s.dir) := by
  refine h.roomy.mono ?_
  unfold dirAsks
  split_ifs with hfull
  · simp only [Bool.and_eq_true, decide_eq_true_eq] at hfull
    omega
  · exact Nat.zero_le _

theorem used (h : s.Keeps n m) : ∀ b ∈ s.dir.refs s.fs.disk, s.fs.disk.bit b = true :=
  h.stored ▸ h.consistent.owned.used h.live

/-- Where no block is handed out, all are marked used. -/
theorem all_used (h : s.Keeps n m) (hr : s.fs.Refuses) : ∀ b < 20480, s.fs.disk.bit b = true := by
  have hroom := hr.room_eq h.consistent.sized h.consistent.layout h.synced
  have hcounted := counted_iff_balance.mpr h.counted
  rw [room_of_counted hcounted, hcounted, Finset.card_eq_zero, Finset.filter_eq_empty_iff] at hroom
  intro b hb
  simpa using hroom (Finset.mem_range.mpr hb)

theorem added (h : s.Keeps n m) {s' : OpenDir} {e : DirEntry} {new : List ℕ} {name : String}
    (ha : AddedEntry s.fs s'.fs s.dir s'.dir e new) (he : e.isEmpty = false)
    (hname : e.nameStr = some name) (hnone : m name = none) :
    s'.Keeps n (Function.update m name (some e.binding)) := by
  have hstored := h.stored
  have hbinds := ha.binds h.binds he hname hnone
  have hcount := ha.blockCount
  have hsmall : s'.dir.blockCount.toNat ≤ 10 := by
    have := h.small
    rcases ha.grown with ⟨rfl, -⟩ | ⟨-, hlt, b, rfl, -⟩
    · rw [hcount, List.length_nil]
      omega
    · rw [hcount, List.length_singleton]
      omega
  have hroomy : s.fs.disk.Roomy (10 - s'.dir.blockCount.toNat + new.length) :=
    h.roomy.mono (by omega)
  have hno := Consistent.toNat_inodeNo (d := s.fs.disk) h.live.1
  have hdir := ha.inode
  rw [← hstored, hno] at hdir
  refine ⟨?_, ha.footprint.synced ?_ h.synced, ha.footprint.balance.trans h.counted,
    ⟨h.live.1, ?_⟩, hdir, ha.mapped h.mapped, hsmall, ha.footprint.roomy_of_alloc hroomy, hbinds⟩
  · rw [← hstored] at ha
    exact ha.consistent h.consistent h.live
  · rw [← hstored, ← h.live.held]
    exact h.consistent.zero_not_mem_held n
  · rw [hdir, ha.nlink, ← hstored]
    exact h.live.2

theorem removed (h : s.Keeps n m) {s' : OpenDir} {name : String} {now : Int64}
    (hr : RemovedEntry s.fs s'.fs s.dir s'.dir name now) :
    s'.Keeps n (Function.update m name none) := by
  have hstored := h.stored
  have hbinds := hr.binds h.binds
  have hno := Consistent.toNat_inodeNo (d := s.fs.disk) h.live.1
  have hdir := hr.inode
  rw [← hstored, hno] at hdir
  have hcount : s'.dir.blockCount = s.dir.blockCount := by rw [hr.dir_eq]
  have hblocks : s'.dir.blocks s'.fs.disk = s.dir.blocks s.fs.disk := by
    have hrefs := hr.refs
    have hind : s'.dir.indirectBlock = s.dir.indirectBlock := by rw [hr.dir_eq]
    rw [Inode.refs, Inode.refs, hind] at hrefs
    exact List.append_cancel_right hrefs
  refine ⟨?_, hr.footprint.synced ?_ h.synced, hr.footprint.balance.trans h.counted,
    ⟨h.live.1, ?_⟩, hdir, ?_, hcount ▸ h.small, ?_, hbinds⟩
  · rw [← hstored] at hr
    exact hr.consistent h.consistent h.live
  · rw [← hstored, ← h.live.held]
    exact h.consistent.zero_not_mem_held n
  · rw [hdir, hr.dir_eq, ← hstored]
    exact h.live.2
  · rw [Inode.mapped_iff_length_blocks, hblocks, hcount, ← Inode.mapped_iff_length_blocks]
    exact h.mapped
  · rw [hcount]
    exact hr.footprint.roomy h.roomy

end OpenDir.Keeps

theorem entries_full_iff {d : Disk} {dir : Inode} (hm : dir.Mapped d) :
    (∀ x ∈ dir.table d, x.isEmpty = false) ↔
      (dir.entries d).length = 15 * dir.blockCount.toNat := by
  rw [← Inode.mapped_iff_length_blocks.mp hm, ← Inode.length_table, Inode.entries, SlotTable.live,
    List.length_filter_eq_length_iff]
  simp

/-- What an addition answers, where the directory makes the map `m`. -/
structure OpenDir.AddAnswer (s : OpenDir) (m : NameMap) (e : DirEntry) (name : String)
    (r : Except String Unit) (s' : OpenDir) : Prop where
  exists_iff : r = .error "entry already exists" ↔ m name ≠ none
  fails_iff : m name = none → (r ≠ .ok () ↔
    (s.dir.entries s.fs.disk).length = 15 * s.dir.blockCount.toNat ∧
      (s.dir.blockCount.toNat = 10 ∨ ∀ b < 20480, s.fs.disk.bit b = true))
  inserted : r = .ok () → s'.dir.table s'.fs.disk =
    SlotTable.insert DirEntry.isEmpty e (List.replicate 14 .blank) (s.dir.table s.fs.disk)
  reuses : r = .ok () → (∃ x ∈ s.dir.table s.fs.disk, x.isEmpty = true) →
    s'.dir.blocks s'.fs.disk = s.dir.blocks s.fs.disk ∧
      ∀ b < 20480, s'.fs.disk.bit b = s.fs.disk.bit b
  unchanged : r ≠ .ok () → s' = s

namespace OpenDir.Keeps

variable {n : ℕ} {s s' : OpenDir} {m : NameMap} {name : String} {child : UInt32} {isDir : Bool}
  {now : Int64} {r : Except String Unit}

theorem addOutcome (h : s.Keeps n m) (hcall : s.call now (.add name child isDir) = some (r, s')) :
    AddOutcome s.fs s.dir name (.new child.toNat name isDir) r s'.fs s'.dir := by
  obtain ⟨⟨r', d, sb, dir⟩, hadd, hcall⟩ := Option.bind_eq_some_iff.mp hcall
  simp only [Option.some.injEq, Prod.mk.injEq] at hcall
  obtain ⟨rfl, rfl⟩ := hcall
  exact dirAddEntry_outcome h.placed h.used h.consistent.owned.low h.asks hadd

/-- A directory that has a free slot or room to grow takes a new name. -/
theorem not_full (h : s.Keeps n m) {e : DirEntry} {new : List ℕ}
    (ha : AddedEntry s.fs s'.fs s.dir s'.dir e new) :
    ¬ ((s.dir.entries s.fs.disk).length = 15 * s.dir.blockCount.toNat ∧
      (s.dir.blockCount.toNat = 10 ∨ ∀ b < 20480, s.fs.disk.bit b = true)) := by
  rintro ⟨hlen, hlimit⟩
  have hfull := (entries_full_iff h.mapped).mpr hlen
  rcases ha.grown with ⟨-, x, hx, hempty⟩ | ⟨-, hlt, b, -, hfree⟩
  · rw [hfull x hx] at hempty
    cases hempty
  · rcases hlimit with h10 | hused
    · omega
    · have := hused b hfree.lt
      rw [hfree.free] at this
      cases this

theorem addAnswer (h : s.Keeps n m) (hcall : s.call now (.add name child isDir) = some (r, s')) :
    s.AddAnswer m (.new child.toNat name isDir) name r s' := by
  cases s' with
  | mk fs' dir' =>
    cases h.addOutcome hcall with
    | @added _ _ new hlacks ha =>
      have hnone := h.binds.lacks_iff.mp hlacks
      refine ⟨by simp [hnone], fun _ => ?_, fun _ => ha.table, fun _ hfree => ?_, by simp⟩
      · exact ⟨fun hok => absurd rfl hok, fun hfull => absurd hfull (h.not_full ha)⟩
      · obtain ⟨x, hx, hempty⟩ := hfree
        rcases ha.grown with ⟨rfl, -⟩ | ⟨hfull, -⟩
        · refine ⟨by rw [ha.blocks, List.append_nil], fun b hb => ?_⟩
          rw [ha.footprint.bit b hb]
          simp
        · rw [hfull x hx] at hempty
          cases hempty
    | found hfind =>
      have hplaced := h.placed
      have hsome : m name ≠ none := by
        rw [ne_eq, ← h.binds.lacks_iff]
        exact fun hlacks => hlacks.dirFind_ne hplaced.sized hplaced.onDisk _ hfind
      exact ⟨by simp [hsome], fun hnone => absurd hnone hsome, by simp, by simp, fun _ => rfl⟩
    | noBlock hlacks hfull hr =>
      have hnone := h.binds.lacks_iff.mp hlacks
      have hlen := (entries_full_iff h.mapped).mp hfull
      refine ⟨by simp [hnone], fun _ => ?_, by simp, by simp, fun _ => rfl⟩
      exact ⟨fun _ => ⟨hlen, Or.inr (h.all_used hr)⟩, fun _ => by simp⟩
    | tooLarge hlacks hfull hcount =>
      have hnone := h.binds.lacks_iff.mp hlacks
      have hlen := (entries_full_iff h.mapped).mp hfull
      refine ⟨by simp [hnone], fun _ => ?_, by simp, by simp, fun _ => rfl⟩
      exact ⟨fun _ => ⟨hlen, Or.inl (le_antisymm h.small hcount)⟩, fun _ => by simp⟩

/-- A name that the map has is found, and one that it lacks is not. -/
theorem dirFind_isSome (h : s.Keeps n m) (name : String) :
    ∃ found, dirFind s.fs.disk s.dir name = some found ∧ (found = none ↔ m name = none) := by
  obtain ⟨found, hfind, hmap⟩ := h.binds.dirFind h.placed.sized h.placed.onDisk name
  exact ⟨found, hfind, by rw [← hmap, Option.map_eq_none_iff]⟩

theorem removeOutcome (h : s.Keeps n m) (hcall : s.call now (.remove name) = some (r, s')) :
    (r = .error "entry not found" ∧ s' = s ∧ m name = none) ∨
      (r = .ok () ∧ m name ≠ none ∧ RemovedEntry s.fs s'.fs s.dir s'.dir name now) := by
  obtain ⟨⟨r', d, dir⟩, hremove, hcall⟩ := Option.bind_eq_some_iff.mp hcall
  simp only [Option.some.injEq, Prod.mk.injEq] at hcall
  obtain ⟨rfl, rfl⟩ := hcall
  obtain ⟨found, hfind, hiff⟩ := h.dirFind_isSome name
  rcases dirRemoveEntry_cases h.placed hremove with ⟨hr, rfl, rfl, hlacks⟩ | ⟨hr, hremoved⟩
  · exact Or.inl ⟨hr, rfl, h.binds.lacks_iff.mp hlacks⟩
  · refine Or.inr ⟨hr, fun hnone => ?_, hremoved⟩
    obtain rfl := hiff.mpr hnone
    simp [dirRemoveEntry, hfind, hr] at hremove

/-- Every call keeps what the directory is. -/
theorem step (h : s.Keeps n m) {e : DirEvent} (hs : s.Steps e s') :
    s'.Keeps n (noteCall s e s' m) := by
  obtain ⟨call, now, result⟩ := e
  obtain ⟨⟨hne, hlen⟩, hcall⟩ := hs
  cases call with
  | add name child isDir =>
    cases result with
    | error text =>
      rw [(h.addAnswer hcall).unchanged (by simp)]
      exact h
    | ok u =>
      cases s' with
      | mk fs' dir' =>
        cases h.addOutcome hcall with
        | added hlacks ha =>
          have hbinding : (DirEntry.new child.toNat name isDir).binding =
              (child, if isDir then 2 else 1) := by
            rw [DirEntry.binding, DirEntry.inode_new, DirEntry.entryType_new, UInt32.ofNat_toNat]
          show OpenDir.Keeps n _ (Function.update m name (some (child, if isDir then 2 else 1)))
          rw [← hbinding]
          exact h.added ha (DirEntry.isEmpty_new _ _ hne) (DirEntry.nameStr_new_of_le _ _ hlen)
            (h.binds.lacks_iff.mp hlacks)
  | remove name =>
    rcases h.removeOutcome hcall with ⟨rfl, rfl, -⟩ | ⟨rfl, -, hremoved⟩
    · exact h
    · exact h.removed hremoved

/-- Every call returns. -/
theorem call_some (h : s.Keeps n m) (now : Int64) (call : DirCall) :
    ∃ r s', s.call now call = some (r, s') := by
  cases call with
  | add name child isDir =>
    obtain ⟨⟨r, d, sb, dir⟩, hadd⟩ := dirAddEntry_some h.placed h.synced h.consistent.owned.low
      h.asks h.mapped h.binds.readable name child.toNat isDir now
    exact ⟨r, ⟨⟨d, sb⟩, dir⟩, Option.bind_eq_some_iff.mpr ⟨_, hadd, rfl⟩⟩
  | remove name =>
    obtain ⟨found, hfind, -⟩ := h.dirFind_isSome name
    cases found with
    | none =>
      refine ⟨.error "entry not found", s, Option.bind_eq_some_iff.mpr
        ⟨(.error "entry not found", s.fs.disk, s.dir), ?_, rfl⟩⟩
      simp [dirRemoveEntry, hfind]
    | some slot =>
      obtain ⟨d, dir, hremove⟩ := dirRemoveEntry_ok h.placed hfind now
      exact ⟨.ok (), ⟨⟨d, s.fs.sb⟩, dir⟩, Option.bind_eq_some_iff.mpr ⟨_, hremove, rfl⟩⟩

end OpenDir.Keeps

/-- The directory answers every call as the map `m` does. -/
structure OpenDir.IsMap (s : OpenDir) (m : NameMap) : Prop where
  finds : ∀ name, ∃ found, dirFind s.fs.disk s.dir name = some found ∧
    found.map (fun slot => (slot.1.inode, slot.1.entryType)) = m name
  lists : ∃ listed, dirLookup s.fs.disk s.dir = some listed ∧
    Lists (fun slot : Slot => slot.1.nameStr) (fun slot => (slot.1.inode, slot.1.entryType)) listed m
  adds : ∀ name child isDir now, FittingName name → ∃ r s',
    s.call now (.add name child isDir) = some (r, s') ∧
      s.AddAnswer m (.new child.toNat name isDir) name r s'
  removes : ∀ name now, FittingName name → ∃ r s', s.call now (.remove name) = some (r, s') ∧
    (r = .ok () ↔ m name ≠ none) ∧ (r ≠ .ok () → r = .error "entry not found" ∧ s' = s)

/-- A new directory is a finite map: after any calls it finds and lists exactly what was added last
and not removed, takes a new name as long as there is a slot for it or a block to get one from, and
a call that fails changes nothing. -/
theorem directory_isMap {fs : Fs} {n p : ℕ} {s : OpenDir} {m : NameMap} (hmade : JustMade fs n p)
    (hground : DirGround fs) (hrun : Run OpenDir.Steps noteCall ⟨fs, fs.disk.inode n⟩ (.dots n p) s m) :
    s.IsMap m := by
  have hkeeps : s.Keeps n m := hrun.invariant (hmade.keeps hground)
    fun _ _ _ _ hk hstep => hk.step hstep
  have hplaced := hkeeps.placed
  refine ⟨hkeeps.binds.dirFind hplaced.sized hplaced.onDisk,
    hkeeps.binds.dirLookup hplaced.sized hplaced.onDisk, fun name child isDir now _ => ?_,
    fun name now _ => ?_⟩
  · obtain ⟨r, s', hcall⟩ := hkeeps.call_some now (.add name child isDir)
    exact ⟨r, s', hcall, hkeeps.addAnswer hcall⟩
  · obtain ⟨r, s', hcall⟩ := hkeeps.call_some now (.remove name)
    refine ⟨r, s', hcall, ?_⟩
    rcases hkeeps.removeOutcome hcall with ⟨rfl, rfl, hnone⟩ | ⟨rfl, hsome, -⟩
    · simp [hnone]
    · simp [hsome]

/-- Formatting gives a directory more blocks than it can take before the first record block. -/
theorem Formatted.dirGround {d : Disk} {now : Int64} {fs : Fs}
    (h : Formatted d now (fun b => decide (b ≤ 31)) fs) (hb : d.Blank) : DirGround fs where
  toConsistent := h.consistent hb
  synced := h.synced
  counted := counted_iff_balance.mpr h.balance
  roomy := by
    intro c hc hfree
    have hlt := hc.lt
    rw [h.bit c hlt, decide_eq_false_iff_not] at hfree
    have hfar : 41 ≤ c := by
      obtain ⟨k, hk, rfl⟩ := hc
      unfold recordBlock at *
      rcases hk with rfl | ⟨hlo, hhi⟩ | ⟨hlo, hhi⟩ <;> omega
    have hsub : Finset.Ico 32 41 ⊆ (Finset.range c).filter fun b => fs.disk.bit b = false := by
      intro b hmem
      obtain ⟨hlo, hhi⟩ := Finset.mem_Ico.mp hmem
      rw [Finset.mem_filter, Finset.mem_range, h.bit b (by omega), decide_eq_false_iff_not]
      omega
    exact (Nat.card_Ico 32 41).ge.trans (Finset.card_le_card hsub)

/-- In a new image, a name that was added is found. -/
theorem directory_isMap_add : ∃ (fs : Fs) (s : OpenDir), mount [] 0 = some fs ∧
    OpenDir.call ⟨fs, fs.disk.inode 1⟩ 0 (.add "a" 7 false) = some (.ok (), s) ∧
      ∃ slot, dirFind s.fs.disk s.dir "a" = some (some slot) ∧ slot.1.inode = 7 := by
  obtain ⟨fs, hformat, hf⟩ := formatNewFs_spec (d := .empty) rfl 0
  have hmade : JustMade fs 1 1 := .format (d := .empty) rfl hformat
  have hground := hf.dirGround Disk.blank_empty
  have hname : FittingName "a" := by
    constructor <;> decide
  obtain ⟨r, s, hcall, hanswer⟩ := (directory_isMap hmade hground .start).adds "a" 7 false 0 hname
  have hok : r = .ok () := by
    by_contra hne
    have hlen := ((hanswer.fails_iff (by decide)).mp hne).1
    rw [hf.entries_root, hf.root] at hlen
    exact absurd hlen (by simp [madeInode])
  subst hok
  have hstep : OpenDir.Steps ⟨fs, fs.disk.inode 1⟩ ⟨.add "a" 7 false, 0, .ok ()⟩ s :=
    ⟨hname, hcall⟩
  obtain ⟨found, hfind, hbinding⟩ :=
    (directory_isMap hmade hground (Run.step _ .start hstep)).finds "a"
  have hmap : found.map (fun slot => (slot.1.inode, slot.1.entryType)) = some (7, 1) := hbinding
  obtain ⟨slot, rfl, hslot⟩ := Option.map_eq_some_iff.mp hmap
  exact ⟨fs, s, hformat, hcall, slot, hfind, congrArg Prod.fst hslot⟩

end SimpleFS
