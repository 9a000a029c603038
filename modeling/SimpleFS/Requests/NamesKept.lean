import Mathlib
import SimpleFS.Requests.AllOrNothing
import SimpleFS.Requests.Naming
import SimpleFS.Requests.Readdir

/-! A name that was given is found under that name until it is taken away, as long as entries can
hold the names that are given. -/
namespace SimpleFS
open Runs

namespace Disk

/-- Directory `p` has the name `s` for inode `n`. -/
structure Holds (d : Disk) (p : ℕ) (s : String) (n : ℕ) : Prop where
  isDirectory : d.IsDirectory p
  entry : ∃ e ∈ (d.inode p).entries d, e.nameStr = some s ∧ e.inode.toNat = n

variable {d d' : Disk} {p q n c : ℕ} {s t : String} {e : DirEntry}

/-- With a name of its own besides the dots a directory has three entries. -/
theorem Holds.length (hh : d.Holds p s n) {α : Type*} {key : DirEntry → α} (h : d.Listing key p)
    (hs : ProperName s) : 2 < ((d.inode p).entries d).length := by
  obtain ⟨e, he, hname, -⟩ := hh.entry
  refine h.length_of_ordinary he (hs.ordinary ?_)
  rw [DirEntry.named, hname]
  exact beq_self_eq_true _

theorem Holds.of_subset (h : d.Holds p s n) (hp : d'.IsDirectory p)
    (hsub : (d.inode p).entries d ⊆ (d'.inode p).entries d') : d'.Holds p s n := by
  obtain ⟨e, he, hname, hn⟩ := h.entry
  exact ⟨hp, e, hsub he, hname, hn⟩

theorem Holds.of_entries (h : d.Holds p s n) (hp : d'.IsDirectory p)
    (heq : (d'.inode p).entries d' = (d.inode p).entries d) : d'.Holds p s n := by
  refine h.of_subset hp ?_
  rw [heq]
  exact fun _ hx => hx

end Disk

section

variable {d d' : Disk} {p n c q : ℕ} {s : String} {e : DirEntry}

/-- Names stay where others are added. -/
theorem Added.holds (h : Added d d' p n e) {t : String} {m : ℕ} (hh : d.Holds q t m) :
    d'.Holds q t m := by
  by_cases hqp : q = p
  · refine hh.of_subset (hqp ▸ h.isDirectory) fun x hx => ?_
    rw [hqp] at hx ⊢
    exact h.entries.mem_iff.mpr (List.mem_cons_of_mem _ hx)
  · have hsame := h.others q hqp fun heq => h.fresh (heq ▸ hh.isDirectory.1)
    exact hh.of_entries (hsame.isDirectory.mpr hh.isDirectory) (hsame.entries hh.isDirectory)

/-- The other names stay, in the directories that stay. -/
theorem Removed.holds (h : Removed d d' p c e) (hname : e.nameStr = some s) {t : String} {m : ℕ}
    (hh : d.Holds q t m) (hqc : q ≠ c) (hne : q = p → t ≠ s) : d'.Holds q t m := by
  by_cases hqp : q = p
  · obtain ⟨x, hx, hxname, hxm⟩ := hh.entry
    have hxe : x ≠ e := by
      rintro rfl
      exact hne hqp (Option.some.inj (hxname.symm.trans hname))
    rw [hqp] at hqc hx ⊢
    exact ⟨h.isDirectory hqc, x,
      (List.mem_cons.mp ((h.entries hqc).mem_iff.mp hx)).resolve_left hxe, hxname, hxm⟩
  · have hsame := h.others q hqp hqc
    exact hh.of_entries (hsame.isDirectory.mpr hh.isDirectory) (hsame.entries hh.isDirectory)

end

/-- The names that an entry can hold. -/
def HeldName (name : ByteArray) : Prop :=
  (String.fromUTF8? name).isSome = true ∧ name.size ≤ maxNameLen

def Request.GivesHeld : Request → Prop
  | .create _ name | .mkdir _ name => HeldName name
  | _ => True

/-- An answered request that gives no other name. -/
structure Fs.StepsHeld (fs : Fs) (e : Event) (fs' : Fs) : Prop extends fs.Steps e fs' where
  held : e.request.GivesHeld

/-- The names that were given and not taken away since, with the inode numbers that were replied. -/
abbrev GivenNames := ℕ → ByteArray → Option ℕ

def noteNaming (_ : Fs) (e : Event) (_ : Fs) (given : GivenNames) : GivenNames :=
  match e.naming with
  | none => given
  | some (p, name, number) => Function.update given p (Function.update (given p) name number)

/-- The requests find the name, and resolve it to inode `n`. -/
structure Fs.Finds (fs : Fs) (p : ℕ) (name : ByteArray) (n : ℕ) : Prop where
  lookup : ∃ attr, fs.lookup p name = some (.entry 1 attr 0, fs) ∧ attr.ino = n
  readdir : ∃ items, fs.readdir p 0 (fun _ _ => false) = some (.directory items, fs) ∧
    ∃ item ∈ items, item.name.toByteArray = name ∧ item.ino = n
  create : ∀ now, fs.create p name now = some (.error .EEXIST, fs)
  mkdir : ∀ now, fs.mkdir p name now = some (.error .EEXIST, fs)
  unlink : ∀ now, ∃ reply fs', fs.unlink p name now = some (reply, fs') ∧ reply ≠ .error .ENOENT
  rmdir : ∀ now, ∃ reply fs', fs.rmdir p name now = some (reply, fs') ∧ reply ≠ .error .ENOENT

/-- What was given is found, and every listing of a directory shows pairwise different names. -/
structure NamesKept (fs : Fs) (given : GivenNames) : Prop where
  kept : ∀ p name n, given p name = some n → fs.Finds p name n
  distinct : ∀ p, fs.disk.IsDirectory p → ∀ offset full, ∃ items,
    fs.readdir p offset full = some (.directory items, fs) ∧ (items.map DirItem.name).Nodup

/-- What every step keeps. -/
structure NamesSound (fs : Fs) (given : GivenNames) : Prop extends Healthy fs where
  listing : ∀ p, fs.disk.IsDirectory p → fs.disk.Listing DirEntry.nameStr p
  holds : ∀ p name n, given p name = some n → ∃ s, String.fromUTF8? name = some s ∧
    ProperName s ∧ fs.disk.Holds p s n

theorem HeldName.nameOr_eq {name : ByteArray} (h : HeldName name) (fallback : String) :
    ∃ s, String.fromUTF8? name = some s ∧ s.toByteArray.size ≤ 28 ∧
      Fs.nameOr fallback name = s := by
  obtain ⟨s, hs⟩ := Option.isSome_iff_exists.mp h.1
  refine ⟨s, hs, ?_, ?_⟩
  · rw [toByteArray_of_fromUTF8? hs]
    exact h.2
  · rw [Fs.nameOr, hs, Option.getD_some]

namespace NamesSound

variable {fs fs' : Fs} {given : GivenNames}

theorem same (h : NamesSound fs given) (hs : SameTree fs.disk fs'.disk) (hh : Healthy fs') :
    NamesSound fs' given := by
  refine ⟨hh, fun p hp => hs.listing h.listing hp, fun p name n hg => ?_⟩
  · obtain ⟨s, hdecode, hproper, hholds⟩ := h.holds p name n hg
    exact ⟨s, hdecode, hproper, hholds.of_entries ((hs.isDirectory p).mpr hholds.isDirectory)
      (hs.entries hholds.isDirectory)⟩

theorem added (h : NamesSound fs given) {p n : ℕ} {name : ByteArray} {s : String} {e : DirEntry}
    (ha : Added fs.disk fs'.disk p n e) (hdecode : String.fromUTF8? name = some s)
    (hproper : ProperName s) (hname : e.nameStr = some s)
    (hlacks : (fs.disk.inode p).Lacks fs.disk s) (hh : Healthy fs') :
    NamesSound fs' (Function.update given p (Function.update (given p) name (some n))) := by
  have hfresh : e.nameStr ∉ ((fs.disk.inode p).entries fs.disk).map DirEntry.nameStr := by
    intro hmem
    obtain ⟨x, hx, heq⟩ := List.mem_map.mp hmem
    have hnamed := (hlacks x hx).2
    rw [DirEntry.named, heq, hname] at hnamed
    simp at hnamed
  refine ⟨hh, fun q hq => ha.listing h.listing (fun _ _ heq => heq) (by simp [hname]) hfresh hq,
    fun q name' m hg => ?_⟩
  by_cases hnew : q = p ∧ name' = name
  · obtain ⟨rfl, rfl⟩ := hnew
    rw [Function.update_self, Function.update_self] at hg
    obtain rfl := Option.some.inj hg
    exact ⟨s, hdecode, hproper, ha.isDirectory, e,
      ha.entries.mem_iff.mpr List.mem_cons_self, hname, ha.names⟩
  · have hold : given q name' = some m := by
      rw [← hg]
      by_cases hqp : q = p
      · rw [hqp, Function.update_self, Function.update_of_ne fun heq => hnew ⟨hqp, heq⟩]
      · rw [Function.update_of_ne hqp]
    obtain ⟨t, ht, htproper, hholds⟩ := h.holds q name' m hold
    exact ⟨t, ht, htproper, ha.holds hholds⟩

theorem removed (h : NamesSound fs given) {p : ℕ} {name : ByteArray} {e : DirEntry}
    (hn : Names fs.disk p (Fs.nameOr "" name) e)
    (hr : Removed fs.disk fs'.disk p e.inode.toNat e)
    (hempty : fs.disk.IsDirectory e.inode.toNat →
      ((fs.disk.inode e.inode.toNat).entries fs.disk).length ≤ 2) (hh : Healthy fs') :
    NamesSound fs' (Function.update given p (Function.update (given p) name none)) := by
  have hname : e.nameStr = some (Fs.nameOr "" name) := by
    have hnamed := hn.named
    rwa [DirEntry.named, beq_iff_eq] at hnamed
  refine ⟨hh, fun q hq => hr.listing h.listing hq, fun q name' m hg => ?_⟩
  have hold : given q name' = some m ∧ (q = p → name' ≠ name) := by
    by_cases hqp : q = p
    · rw [hqp, Function.update_self] at hg
      by_cases heq : name' = name
      · rw [heq, Function.update_self] at hg
        cases hg
      · rw [Function.update_of_ne heq] at hg
        exact ⟨hqp ▸ hg, fun _ => heq⟩
    · rw [Function.update_of_ne hqp] at hg
      exact ⟨hg, fun heq => absurd heq hqp⟩
  obtain ⟨t, ht, htproper, hholds⟩ := h.holds q name' m hold.1
  refine ⟨t, ht, htproper, hr.holds hname hholds (fun hqc => ?_) fun hqp htname => ?_⟩
  · have hchild := hqc ▸ hholds.isDirectory
    have hlen := hholds.length (h.listing q hholds.isDirectory) htproper
    have := hempty hchild
    rw [← hqc] at this
    omega
  · -- two names of bytes that read as the same text are the same bytes
    have hbytes := toByteArray_of_fromUTF8? ht
    rw [htname] at hbytes
    refine hold.2 hqp ?_
    cases hdecode : String.fromUTF8? name with
    | none =>
      rw [Fs.nameOr, hdecode, Option.getD_none] at htname
      exact absurd htname htproper.ne_empty
    | some s =>
      rw [Fs.nameOr, hdecode, Option.getD_some, toByteArray_of_fromUTF8? hdecode] at hbytes
      exact hbytes.symm

end NamesSound

theorem Request.GivesHeld.of_naming {e : Event} (h : e.request.GivesHeld) {p n : ℕ}
    {name : ByteArray} (hn : e.naming = some (p, name, some n)) : HeldName name := by
  unfold Event.naming at hn
  split at hn
  · rename_i hrequest _
    cases hn
    rwa [hrequest] at h
  · rename_i hrequest _
    cases hn
    rwa [hrequest] at h
  · cases hn
  · cases hn
  · cases hn

namespace NamesSound

variable {fs fs' : Fs} {given : GivenNames}

/-- Every step keeps the names. -/
theorem step (h : NamesSound fs given) {e : Event} (hs : fs.StepsHeld e fs') :
    NamesSound fs' (noteNaming fs e fs' given) := by
  have hh := hs.toSteps.healthy h.toHealthy
  have hchange := hs.toSteps.nameChange h.toHealthy
  unfold noteNaming
  cases hn : e.naming with
  | none =>
    rw [hn] at hchange
    cases hchange with
    | kept hsame => exact h.same hsame hh
  | some naming =>
    rw [hn] at hchange
    cases hchange with
    | @given p n isDir name hname hlacks ha _ =>
      obtain ⟨s, hdecode, hlen, hs'⟩ := (hs.held.of_naming hn).nameOr_eq "unknown"
      have hproper := hname.proper properName_unknown
      rw [hs'] at hlacks ha hproper
      exact h.added ha hdecode hproper (DirEntry.nameStr_new_of_le n isDir hlen) hlacks hh
    | taken _ hnames hr hempty _ => exact h.removed hnames hr hempty hh

/-- A name that a directory holds is found, and the entry that is found is the only one with it. -/
theorem found (h : NamesSound fs given) {p n : ℕ} {s : String} (hproper : ProperName s)
    (hh : fs.disk.Holds p s n) : ∃ e slot,
      dirFind fs.disk (fs.disk.inode p) s = some (some (e, slot)) ∧
      e ∈ (fs.disk.inode p).entries fs.disk ∧ e.nameStr = some s ∧ e.inode.toNat = n ∧
      fs.disk.Live n ∧ ∀ x ∈ (fs.disk.inode p).entries fs.disk, x.named s = true → x = e := by
  obtain ⟨hp, e, he, hname, hn⟩ := hh
  have hlist := h.listing p hp
  have hplaced := h.placed hp.1
  have hnamed : e.named s = true := by
    rw [DirEntry.named, hname]
    exact beq_self_eq_true _
  have hone : ∀ x ∈ (fs.disk.inode p).entries fs.disk, x.named s = true → x = e := by
    intro x hx hxs
    rw [DirEntry.named, beq_iff_eq] at hxs
    exact List.inj_on_of_nodup_map hlist.distinct hx he (hxs.trans hname.symm)
  obtain ⟨slot, hfind⟩ := dirFind_of_mem_entries hplaced.sized hplaced.onDisk hlist.readable he
    hnamed hone
  exact ⟨e, slot, hfind, he, hname, hn, hn ▸ h.tree.live_of_named hp hproper he hnamed, hone⟩

/-- A name that a directory holds is found by every request. -/
theorem finds (h : NamesSound fs given) {p n : ℕ} {name : ByteArray}
    (hg : given p name = some n) : fs.Finds p name n := by
  obtain ⟨s, hdecode, hproper, hh⟩ := h.holds p name n hg
  obtain ⟨e, slot, hfind, he, hname, hn, hlive, hone⟩ := h.found hproper hh
  have hp := hh.isDirectory
  have hnamed : e.named s = true := by
    rw [DirEntry.named, hname]
    exact beq_self_eq_true _
  have hor : Fs.nameOr "" name = s := by
    rw [Fs.nameOr, hdecode, Option.getD_some]
  have hfind' : dirFind fs.disk (fs.disk.inode p) (Fs.nameOr "" name) = some (some (e, slot)) := by
    rw [hor, hfind]
  have hlives : ∀ x ∈ (fs.disk.inode p).entries fs.disk, x.named (Fs.nameOr "" name) = true →
      fs.disk.Live x.inode.toNat := by
    intro x hx hxs
    rw [hor] at hxs
    rw [hone x hx hxs, hn]
    exact hlive
  have hlacks : ¬ (fs.disk.inode p).Lacks fs.disk (Fs.nameOr "" name) := by
    intro hl
    have hnot := (hl e he).2
    rw [hor, hnamed] at hnot
    cases hnot
  have h32 := Consistent.asU32_of_inodeNo hp.1.1
  have hparent := h.readInode hp.1.1
  constructor
  · refine ⟨inodeToAttr (fs.disk.inode n), ?_, Consistent.toNat_inodeNo (d := fs.disk) hlive.1⟩
    rw [Fs.lookup, h32, hparent, Option.bind_eq_bind, Option.bind_some, hdecode,
      Option.getD_some, hfind, Option.bind_eq_bind, Option.bind_some]
    dsimp only
    rw [hn, h.readInode hlive.1, Option.bind_some]
  · obtain ⟨j, hj⟩ := @mem_items 0 _ _ he
    have hreaddir := Fs.readdir_eq h.toConsistent hp (h.listing p hp).readable 0 fun _ _ => false
    rw [fill_of_never (fun _ _ => rfl), List.nil_append, show (0 : Int64).toInt.toNat = 0 from rfl,
      List.drop_zero] at hreaddir
    refine ⟨_, hreaddir, e.item j, hj, ?_, hn⟩
    rw [DirEntry.item, hname, Option.getD_some]
    exact toByteArray_of_fromUTF8? hdecode
  · intro now
    rw [Fs.create, h32, hparent, Option.bind_eq_bind, Option.bind_some, hdecode,
      Option.getD_some, hfind, Option.bind_eq_bind, Option.bind_some]
    rfl
  · intro now
    refine Fs.answered_eq_some.mpr ?_
    rw [Fs.mkdirAttempt, h32, hparent, Option.bind_eq_bind, Option.bind_some, hdecode,
      Option.getD_some, hfind, Option.bind_eq_bind, Option.bind_some]
    rfl
  · intro now
    obtain ⟨reply, fs', hunlink⟩ := unlink_some h.toConsistent hp.1 hfind' hlives now
    refine ⟨reply, fs', hunlink, ?_⟩
    cases unlink_outcome h.toConsistent hp.1 hp.2 hlives hunlink with
    | missing hl => exact absurd hl hlacks
    | isDir _ _ => simp
    | gone _ _ _ => simp
  · intro now
    obtain ⟨reply, fs', hrmdir⟩ := rmdir_some h.toConsistent hp.1 hfind' hlives now
    refine ⟨reply, fs', hrmdir, ?_⟩
    cases rmdir_outcome h.toConsistent hp.1 hlives hrmdir with
    | missing hl => exact absurd hl hlacks
    | notDir _ _ => simp
    | notEmpty _ _ => simp
    | gone _ _ _ _ => simp

theorem namesKept (h : NamesSound fs given) : NamesKept fs given where
  kept _ _ _ hg := h.finds hg
  distinct p hp offset full := by
    have hlist := h.listing p hp
    refine ⟨_, Fs.readdir_eq h.toConsistent hp hlist.readable offset full, ?_⟩
    obtain ⟨m, hm⟩ := @fill_eq_take full []
      ((items 0 ((fs.disk.inode p).entries fs.disk)).drop offset.toInt.toNat)
    rw [hm, List.nil_append]
    have hsub := ((List.take_sublist m _).trans (List.drop_sublist offset.toInt.toNat
      (items 0 ((fs.disk.inode p).entries fs.disk)))).map DirItem.name
    refine hsub.nodup ?_
    rw [map_name_items]
    refine List.Nodup.of_map some ?_
    rw [List.map_map]
    refine (congrArg List.Nodup (List.map_congr_left fun e he => ?_)).mpr hlist.distinct
    obtain ⟨s, hs⟩ := Option.ne_none_iff_exists'.mp (hlist.readable e he)
    simp [hs]

end NamesSound

theorem Formatted.namesSound {d : Disk} {now : Int64} {taken : ℕ → Bool} {fs : Fs}
    (h : Formatted d now taken fs) (hb : d.Blank) : NamesSound fs fun _ _ => none := by
  refine ⟨h.healthy hb, fun p hp => ?_, by simp⟩
  rw [(h.live_iff hb).mp hp.1]
  exact .dots (fun _ _ heq => heq) h.entries_root (DirEntry.named_new_dot 1).1
    (DirEntry.named_new_dotdot 1).2

/-- In every run in which the names that are given fit into an entry, what was given is found until
it is taken away, and no directory shows a name twice. -/
theorem namesKept_of_run {now : Int64} {start fs : Fs} {given : GivenNames}
    (hmount : mount [] now = some start)
    (hrun : Run Fs.StepsHeld noteNaming start (fun _ _ => none) fs given) : NamesKept fs given := by
  obtain ⟨fs₀, hfs₀, hformat⟩ := mount_nil now
  obtain rfl : start = fs₀ := Option.some.inj (hmount.symm.trans hfs₀)
  have hsound : NamesSound fs given := hrun.invariant (hformat.namesSound Disk.blank_empty)
    fun _ _ _ _ hp hstep => hp.step hstep
  exact hsound.namesKept

theorem noteNaming_create (fs fs' : Fs) (p : ℕ) (name : ByteArray) (now : ℕ → Int64) (ttl : ℕ)
    (attr : FileAttr) (generation fh flags : ℕ) (given : GivenNames) :
    noteNaming fs ⟨.create p name, now, .created ttl attr generation fh flags⟩ fs' given p name =
      some attr.ino := by
  simp [noteNaming, Event.naming]

/-- In a new image the name of a new file is found. -/
theorem namesKept_of_run_create : ∃ (start fs : Fs) (given : GivenNames),
    mount [] 0 = some start ∧ Run Fs.StepsHeld noteNaming start (fun _ _ => none) fs given ∧
      fs.Finds 1 "a".toByteArray 1000 := by
  obtain ⟨start, hmount, hformat⟩ := mount_nil 0
  obtain ⟨hsafe, fs, hcreate, hb⟩ := hformat.create Disk.blank_empty entryName_a fun _ => 0
  have hheld : HeldName "a".toByteArray := by
    constructor
    · rw [fromUTF8?_toByteArray]
      rfl
    · decide
  have hstep : start.StepsHeld ⟨.create 1 "a".toByteArray, fun _ => 0, _⟩ fs :=
    ⟨⟨⟨hformat.isDirectory_root, entryName_a⟩, hsafe, hcreate⟩, hheld⟩
  have hgiven := noteNaming_create start fs 1 "a".toByteArray (fun _ => 0) 1
    (inodeToAttr (createdInode 1000 0)) 0 1000 0 fun _ _ => none
  have hrun : Run Fs.StepsHeld noteNaming start (fun _ _ => none) fs _ := .step _ .start hstep
  exact ⟨start, fs, _, hmount, hrun, (namesKept_of_run hmount hrun).kept 1 _ 1000 hgiven⟩

/-- A name that a directory lacks is not found. -/
theorem lookup_lacks {fs : Fs} (hc : Consistent fs) {p : ℕ} (hp : fs.disk.Live p)
    {name : ByteArray} (hlacks : (fs.disk.inode p).Lacks fs.disk (Fs.nameOr "" name)) :
    fs.lookup p name = some (.error .ENOENT, fs) := by
  have hplaced := hc.placed hp
  obtain ⟨found, hfind⟩ := dirFind_some hplaced (fun e he => (hlacks e he).1) (Fs.nameOr "" name)
  cases found with
  | some slot => exact absurd hfind (hlacks.dirFind_ne hplaced.sized hplaced.onDisk slot)
  | none =>
    rw [Fs.lookup, Consistent.asU32_of_inodeNo hp.1, hc.readInode hp.1, Option.bind_eq_bind,
      Option.bind_some, show dirFind fs.disk (fs.disk.inode p) ((String.fromUTF8? name).getD "") =
        some none from hfind, Option.bind_eq_bind, Option.bind_some]

/-- A file is created with a name of 29 bytes, and not found. -/
theorem not_namesKept_longName : ∃ (start fs : Fs) (given : GivenNames),
    mount [] 0 = some start ∧ Run Fs.Steps noteNaming start (fun _ _ => none) fs given ∧
      given 1 (longName 26).toByteArray = some 1000 ∧
      fs.lookup 1 (longName 26).toByteArray = some (.error .ENOENT, fs) ∧
      ¬ NamesKept fs given := by
  obtain ⟨start, hmount, hformat⟩ := mount_nil 0
  have hname := entryName_longName 26
  obtain ⟨hsafe, fs, hcreate, hb⟩ := hformat.create Disk.blank_empty hname fun _ => 0
  have hor : ∀ fallback, Fs.nameOr fallback (longName 26).toByteArray = longName 26 :=
    fun fallback => by
      rw [Fs.nameOr, fromUTF8?_toByteArray, Option.getD_some]
  rw [hor] at hb
  have hstep : start.Steps ⟨.create 1 (longName 26).toByteArray, fun _ => 0, _⟩ fs :=
    ⟨⟨hformat.isDirectory_root, hname⟩, hsafe, hcreate⟩
  have hsize : (longName 26).utf8ByteSize = 29 := utf8ByteSize_longName 26
  have hroot : fs.disk.Live 1 := ⟨Or.inl rfl, by rw [hb.nlink]; exact hformat.live_root.2⟩
  have hlacks : (fs.disk.inode 1).Lacks fs.disk (longName 26) := by
    have hperm := perm_entries_insert (DirEntry.isEmpty_new 1000 false fun heq => by
      rw [heq] at hsize
      revert hsize
      decide) hb.table
    intro e he
    rcases List.mem_cons.mp (hperm.mem_iff.mp he) with rfl | he
    · obtain ⟨s, hs, hcut⟩ := @DirEntry.nameStr_new_of_lt 1000 (longName 26) false (by
        rw [String.size_toByteArray, hsize]
        decide)
      refine ⟨by simp [hs], ?_⟩
      rw [DirEntry.named, hs, beq_eq_false_iff_ne]
      intro heq
      rw [Option.some.inj heq, String.size_toByteArray, hsize] at hcut
      rcases hcut with hcut | hcut
      · rw [hcut] at hsize
        revert hsize
        decide
      · omega
    · refine hformat.lacks_root (fun heq => ?_) (fun heq => ?_) e he
      · rw [heq] at hsize
        revert hsize
        decide
      · rw [heq] at hsize
        revert hsize
        decide
  have hlookup := lookup_lacks hb.consistent hroot (by rw [hor]; exact hlacks)
  have hgiven := noteNaming_create start fs 1 (longName 26).toByteArray (fun _ => 0) 1
    (inodeToAttr (createdInode 1000 0)) 0 1000 0 fun _ _ => none
  refine ⟨start, fs, _, hmount, .step _ .start hstep, hgiven, hlookup, fun h => ?_⟩
  obtain ⟨attr, hfound, -⟩ := (h.kept 1 _ 1000 hgiven).lookup
  rw [hlookup] at hfound
  cases hfound

end SimpleFS
