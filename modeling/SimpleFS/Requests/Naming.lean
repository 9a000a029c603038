import SimpleFS.Requests.Returns
import SimpleFS.Requests.Runs

/-! The names that answered requests give and take, and what such a request does to the entries of
the directories. -/
namespace SimpleFS

/-- The name in a directory that a reply says was given to an inode, or taken away. -/
def Event.naming (e : Event) : Option (ℕ × ByteArray × Option ℕ) :=
  match e.request, e.reply with
  | .create p name, .created _ attr _ _ _ => some (p, name, some attr.ino)
  | .mkdir p name, .entry _ attr _ => some (p, name, some attr.ino)
  | .unlink p name, .ok => some (p, name, none)
  | .rmdir p name, .ok => some (p, name, none)
  | _, _ => none

/-- What a request did to the entries, by the name that it gave or took away. -/
inductive NameChange (fs fs' : Fs) : Option (ℕ × ByteArray × Option ℕ) → Prop
  | kept : SameTree fs.disk fs'.disk → NameChange fs fs' none
  | given {p n isDir name} : EntryName name →
      (fs.disk.inode p).Lacks fs.disk (Fs.nameOr "unknown" name) →
      Added fs.disk fs'.disk p n (.new n (Fs.nameOr "unknown" name) isDir) →
      (fs'.disk.inode p).table fs'.disk = SlotTable.insert DirEntry.isEmpty
        (.new n (Fs.nameOr "unknown" name) isDir) (List.replicate 14 .blank)
        ((fs.disk.inode p).table fs.disk) → NameChange fs fs' (some (p, name, some n))
  | taken {p e name} : EntryName name → Names fs.disk p (Fs.nameOr "" name) e →
      Removed fs.disk fs'.disk p e.inode.toNat e →
      (fs.disk.IsDirectory e.inode.toNat →
        ((fs.disk.inode e.inode.toNat).entries fs.disk).length ≤ 2) →
      (p ≠ e.inode.toNat → (fs'.disk.inode p).table fs'.disk = SlotTable.clear DirEntry.isEmpty
        (DirEntry.named (Fs.nameOr "" name)) DirEntry.cleared ((fs.disk.inode p).table fs.disk)) →
      NameChange fs fs' (some (p, name, none))

theorem SameTree.refl (d : Disk) : SameTree d d :=
  ⟨fun _ _ => ⟨Iff.rfl, fun _ => rfl, fun _ => rfl⟩, fun _ hq hdir => hq hdir.1⟩

section

variable {fs fs' : Fs} {reply : Reply} {now : ℕ → Int64}

theorem create_nameChange (hs : Healthy fs) {p : ℕ} {name : ByteArray} (hp : fs.disk.IsDirectory p)
    (hname : EntryName name) (hsafe : fs.StepSafe (.create p name))
    (h : fs.create p name now = some (reply, fs')) :
    NameChange fs fs' (Event.naming ⟨.create p name, now, reply⟩) := by
  have hc := hs.toConsistent
  cases create_outcome hc hp.1 hsafe h with
  | found _ => exact .kept (.refl _)
  | noInode _ _ => exact .kept (.refl _)
  | orphan _ _ _ hunused _ _ hst => exact .kept (hst.sameTree hc hunused)
  | @created _ n _ hlacks hlo _ _ hb =>
    have hadded := hb.added hc hp (hname.proper properName_unknown) (by omega)
      (nlink_createdInode _ _) (isDir_createdInode _ _) (by simp) (mapped_createdInode _ _ _)
    show NameChange fs fs' (some (p, name, some (UInt32.ofNat n).toNat))
    rw [toNat_ofNat_of_inodeNo hb.inodeNo]
    exact .given hname hlacks hadded hb.table

theorem mkdir_nameChange (hs : Healthy fs) {p : ℕ} {name : ByteArray} (hp : fs.disk.IsDirectory p)
    (hname : EntryName name) (hsafe : fs.StepSafe (.mkdir p name))
    (h : fs.mkdir p name now = some (reply, fs')) :
    NameChange fs fs' (Event.naming ⟨.mkdir p name, now, reply⟩) := by
  have hc := hs.toConsistent
  cases mkdirAttempt_outcome hc hp.1 hsafe (Fs.answered_eq_some.mp h) with
  | found _ => exact .kept (.refl _)
  | noInode _ _ => exact .kept (.refl _)
  | noBlock _ _ => exact .kept (.refl _)
  | @made _ n b _ hlacks hlo _ _ hb =>
    have hadded := hb.added hc hp (hname.proper properName_unknown) (by omega)
      (nlink_madeInode _ _ _) (isDir_madeInode _ _ _) (fun _ => rfl) hb.mapped_madeInode
    show NameChange fs fs' (some (p, name, some (UInt32.ofNat n).toNat))
    rw [toNat_ofNat_of_inodeNo hb.inodeNo]
    exact .given hname hlacks hadded hb.table

theorem unlink_nameChange (hs : Healthy fs) {p : ℕ} {name : ByteArray} (hp : fs.disk.IsDirectory p)
    (hname : EntryName name) (h : fs.unlink p name now = some (reply, fs')) :
    NameChange fs fs' (Event.naming ⟨.unlink p name, now, reply⟩) := by
  have hc := hs.toConsistent
  cases unlink_outcome hc hp.1 hp.2 (hs.tree.live_of_nameOr hp hname) h with
  | missing _ => exact .kept (.refl _)
  | isDir _ _ => exact .kept (.refl _)
  | gone hn hfile hg =>
    refine .taken hname hn (hg.removed hc hp hn (hn.proper hname)) (fun hdir => ?_) hg.table
    rw [hdir.2] at hfile
    cases hfile

theorem rmdir_nameChange (hs : Healthy fs) {p : ℕ} {name : ByteArray} (hp : fs.disk.IsDirectory p)
    (hname : EntryName name) (h : fs.rmdir p name now = some (reply, fs')) :
    NameChange fs fs' (Event.naming ⟨.rmdir p name, now, reply⟩) := by
  have hc := hs.toConsistent
  cases rmdir_outcome hc hp.1 (hs.tree.live_of_nameOr hp hname) h with
  | missing _ => exact .kept (.refl _)
  | notDir _ _ => exact .kept (.refl _)
  | notEmpty _ _ => exact .kept (.refl _)
  | gone hn _ hlen hg =>
    exact .taken hname hn (hg.removed hc hp hn (hn.proper hname)) (fun _ => hlen) hg.table

theorem write_sameTree (hs : Healthy fs) {n : ℕ} {offset : Int64} {data : List UInt8}
    (hn : fs.disk.Live n) (hfile : (fs.disk.inode n).isDir = false)
    (hsafe : fs.StepSafe (.write n offset data))
    (h : fs.write n offset data now = some (reply, fs')) : SameTree fs.disk fs'.disk := by
  have hc := hs.toConsistent
  cases writeAttempt_outcome hc hn hsafe (Fs.answered_eq_some.mp h) with
  | empty _ => exact .refl _
  | tooBig _ _ => exact .refl _
  | stalled _ _ _ _ hst _ => exact hst.sameTree hc hn hfile
  | wrote _ _ _ hw => exact hw.sameTree hc hn hfile

/-- Every answered request changes the entries as its reply says. -/
theorem Fs.Steps.nameChange {e : Event} (h : fs.Steps e fs') (hs : Healthy fs) :
    NameChange fs fs' e.naming := by
  obtain ⟨request, now, reply⟩ := e
  obtain ⟨hconf, hsafe, hanswer⟩ := h
  have hlooks : fs' = fs → NameChange fs fs' none := fun heq => heq ▸ .kept (.refl _)
  cases request with
  | getattr ino => exact hlooks (Fs.getattr_unchanged hanswer)
  | readdir ino offset full => exact hlooks (Fs.readdir_unchanged hanswer)
  | lookup p name => exact hlooks (Fs.lookup_unchanged hanswer)
  | openFile ino flags uid gid => exact hlooks (Fs.openFile_unchanged hanswer)
  | read ino offset size => exact hlooks (Fs.read_unchanged hanswer)
  | create p name => exact create_nameChange hs hconf.1 hconf.2 hsafe hanswer
  | mkdir p name => exact mkdir_nameChange hs hconf.1 hconf.2 hsafe hanswer
  | unlink p name => exact unlink_nameChange hs hconf.1 hconf.2 hanswer
  | rmdir p name => exact rmdir_nameChange hs hconf.1 hconf.2 hanswer
  | write n offset data => exact .kept (write_sameTree hs hconf.1 hconf.2 hsafe hanswer)
  | setattr n mode size =>
    have hn : fs.disk.Live n := hconf
    have ha := @setattr_outcome fs fs' n hs.toConsistent hn mode size now reply hanswer
    exact .kept (ha.sameTree hs.toConsistent hn)

end

/-- The names in directory `p` can be read, the entries differ in their keys, and the dots are among
them. -/
structure Disk.Listing {α : Type*} (key : DirEntry → α) (d : Disk) (p : ℕ) : Prop where
  readable : d.Readable p
  distinct : (((d.inode p).entries d).map key).Nodup
  dot : some "." ∈ ((d.inode p).entries d).map DirEntry.nameStr
  dotdot : some ".." ∈ ((d.inode p).entries d).map DirEntry.nameStr

section

variable {α : Type*} {key : DirEntry → α} {d d' : Disk} {p n c q : ℕ} {s : String} {e : DirEntry}

namespace Disk.Listing

theorem of_entries (h : d.Listing key p)
    (heq : (d'.inode q).entries d' = (d.inode p).entries d) : d'.Listing key q := by
  constructor
  · rw [Readable, heq]
    exact h.readable
  · rw [heq]
    exact h.distinct
  · rw [heq]
    exact h.dot
  · rw [heq]
    exact h.dotdot

/-- With an entry besides the dots a directory has three. -/
theorem length_of_ordinary (h : d.Listing key p) (he : e ∈ (d.inode p).entries d)
    (hordinary : e.ordinary = true) : 2 < ((d.inode p).entries d).length := by
  obtain ⟨hdot, hdotdot⟩ := DirEntry.ordinary_iff.mp hordinary
  rw [DirEntry.named, beq_eq_false_iff_ne] at hdot hdotdot
  have hnodup : [some ".", some "..", e.nameStr].Nodup := by
    simp [Ne.symm hdot, Ne.symm hdotdot]
  have hsub : [some ".", some "..", e.nameStr] ⊆ ((d.inode p).entries d).map DirEntry.nameStr := by
    simp only [List.cons_subset, h.dot, h.dotdot, List.nil_subset, and_true, true_and]
    exact List.mem_map_of_mem he
  have hlen := (List.subperm_of_subset hnodup hsub).length_le
  rw [List.length_map] at hlen
  exact hlen

/-- A new entry with a key of its own extends a listing. -/
theorem cons (h : d.Listing key p) (hname : e.nameStr ≠ none)
    (hfresh : key e ∉ ((d.inode p).entries d).map key)
    (hperm : ((d'.inode p).entries d').Perm (e :: (d.inode p).entries d)) : d'.Listing key p := by
  have hnames := hperm.map DirEntry.nameStr
  rw [List.map_cons] at hnames
  refine ⟨fun x hx => ?_, ?_, hnames.mem_iff.mpr (List.mem_cons_of_mem _ h.dot),
    hnames.mem_iff.mpr (List.mem_cons_of_mem _ h.dotdot)⟩
  · rcases List.mem_cons.mp (hperm.mem_iff.mp hx) with rfl | hx
    · exact hname
    · exact h.readable x hx
  · rw [(hperm.map key).nodup_iff]
    exact List.nodup_cons.mpr ⟨hfresh, h.distinct⟩

/-- Without an entry that is not one of the dots it stays one. -/
theorem tail (h : d.Listing key p) (he : e.ordinary = true)
    (hperm : ((d.inode p).entries d).Perm (e :: (d'.inode p).entries d')) : d'.Listing key p := by
  obtain ⟨hdot, hdotdot⟩ := DirEntry.ordinary_iff.mp he
  have hnames := hperm.map DirEntry.nameStr
  rw [List.map_cons] at hnames
  have hkeep : ∀ t, e.named t = false → some t ∈ ((d.inode p).entries d).map DirEntry.nameStr →
      some t ∈ ((d'.inode p).entries d').map DirEntry.nameStr := by
    intro t ht hmem
    refine (List.mem_cons.mp (hnames.mem_iff.mp hmem)).resolve_left fun heq => ?_
    rw [DirEntry.named, ← heq] at ht
    simp at ht
  exact ⟨fun x hx => h.readable x (hperm.mem_iff.mpr (List.mem_cons_of_mem _ hx)),
    (List.nodup_cons.mp ((hperm.map key).nodup_iff.mp h.distinct)).2, hkeep _ hdot h.dot,
    hkeep _ hdotdot h.dotdot⟩

/-- A directory with the entries `.` and `..` only. -/
theorem dots (hkey : ∀ x y, key x = key y → x.nameStr = y.nameStr) {e₁ e₂ : DirEntry}
    (h : (d.inode p).entries d = [e₁, e₂]) (h₁ : e₁.named "." = true)
    (h₂ : e₂.named ".." = true) : d.Listing key p := by
  rw [DirEntry.named, beq_iff_eq] at h₁ h₂
  have hne : key e₁ ≠ key e₂ := fun heq => by
    have hnames := hkey e₁ e₂ heq
    rw [h₁, h₂] at hnames
    exact absurd hnames (by decide)
  constructor
  · intro x hx
    rw [h] at hx
    rcases List.mem_pair.mp hx with rfl | rfl
    · simp [h₁]
    · simp [h₂]
  · simp [h, hne]
  · simp [h, h₁]
  · simp [h, h₂]

end Disk.Listing

/-- Every directory is a listing after an entry was added whose key the directory lacked. -/
theorem Added.listing (h : Added d d' p n e) (hd : ∀ r, d.IsDirectory r → d.Listing key r)
    (hkey : ∀ x y, key x = key y → x.nameStr = y.nameStr) (hname : e.nameStr ≠ none)
    (hfresh : key e ∉ ((d.inode p).entries d).map key) (hq : d'.IsDirectory q) :
    d'.Listing key q := by
  by_cases hqn : q = n
  · obtain ⟨e₁, e₂, hentries, h₁, h₂⟩ := h.dots (hqn ▸ hq.2)
    rw [hqn]
    exact .dots hkey hentries h₁.1 h₂.2.1
  · by_cases hqp : q = p
    · rw [hqp]
      exact (hd p h.parent).cons hname hfresh h.entries
    · have hsame := h.others q hqp hqn
      have hold := hsame.isDirectory.mp hq
      exact (hd q hold).of_entries (hsame.entries hold)

theorem Removed.listing (h : Removed d d' p c e) (hd : ∀ r, d.IsDirectory r → d.Listing key r)
    (hq : d'.IsDirectory q) : d'.Listing key q := by
  have hqc : q ≠ c := fun heq => h.gone (heq ▸ hq.1)
  by_cases hqp : q = p
  · rw [hqp] at hqc ⊢
    exact (hd p h.parent).tail h.ordinary (h.entries hqc)
  · have hold := h.isDirectory_of hq
    exact (hd q hold).of_entries ((h.others q hqp hqc).entries hold)

theorem SameTree.listing (h : SameTree d d') (hd : ∀ r, d.IsDirectory r → d.Listing key r)
    (hq : d'.IsDirectory q) : d'.Listing key q := by
  have hold := (h.isDirectory q).mp hq
  exact (hd q hold).of_entries (h.entries hold)

end

end SimpleFS
