import SimpleFS.Image.Tree
import SimpleFS.Requests.Create
import SimpleFS.Requests.Queries
import SimpleFS.Requests.Remove
import SimpleFS.Requests.Write

/-! All requests together: what an answered request may have changed, whichever it was. -/
namespace SimpleFS

/-- A name that the kernel sends for an entry: not empty, and not one of the dots. -/
structure EntryName (name : ByteArray) : Prop where
  ne_empty : name ≠ "".toByteArray
  ne_dot : name ≠ ".".toByteArray
  ne_dotdot : name ≠ "..".toByteArray

/-- The same for the text that an operation works with. -/
structure ProperName (s : String) : Prop where
  ne_empty : s ≠ ""
  ne_dot : s ≠ "."
  ne_dotdot : s ≠ ".."

theorem EntryName.nameOr_ne {name : ByteArray} {fallback s : String} (hf : fallback ≠ s)
    (hs : name ≠ s.toByteArray) : Fs.nameOr fallback name ≠ s := by
  unfold Fs.nameOr
  cases h : String.fromUTF8? name with
  | none => exact hf
  | some t =>
    rintro rfl
    exact hs (toByteArray_of_fromUTF8? h).symm

theorem EntryName.proper {name : ByteArray} (h : EntryName name) {fallback : String}
    (hf : ProperName fallback) : ProperName (Fs.nameOr fallback name) :=
  ⟨nameOr_ne hf.ne_empty h.ne_empty, nameOr_ne hf.ne_dot h.ne_dot,
    nameOr_ne hf.ne_dotdot h.ne_dotdot⟩

theorem properName_unknown : ProperName "unknown" := by
  constructor <;> decide

/-- No entry has the empty name. -/
theorem DirEntry.named_empty {e : DirEntry} (h : e.isEmpty = false) : e.named "" = false := by
  rw [DirEntry.named, beq_eq_false_iff_ne, DirEntry.nameStr]
  split_ifs with hlen
  · intro heq
    have hlen0 : e.nameLen ≠ 0 := by simpa [DirEntry.isEmpty] using h
    have hpos : e.nameLen.toNat ≠ 0 := fun h0 => hlen0 (UInt8.toNat_inj.mp h0)
    cases hs : String.fromUTF8? e.nameBytes with
    | none => simp [hs] at heq
    | some s =>
      rw [hs, Option.getD_some] at heq
      have hbytes := toByteArray_of_fromUTF8? hs
      rw [Option.some.inj heq] at hbytes
      have hsize := congrArg ByteArray.size hbytes
      rw [show e.nameBytes.size = min e.nameLen.toNat 28 - 0 by
        rw [DirEntry.nameBytes, ← ByteArray.size_data, Array.size_extract, Vector.size_toArray]] at hsize
      simp only [String.toByteArray_empty, ByteArray.size_empty] at hsize
      simp only [maxNameLen] at hlen
      omega
  · simp

/-- The requests that the kernel sends: names of entries in directories in use, writes to files in
use. -/
def Fs.Conforms (fs : Fs) : Request → Prop
  | .create parent name | .mkdir parent name | .rmdir parent name | .unlink parent name =>
    fs.disk.IsDirectory parent ∧ EntryName name
  | .write ino _ _ => fs.disk.Live ino ∧ (fs.disk.inode ino).isDir = false
  | .setattr ino _ _ => fs.disk.Live ino
  | _ => True

/-- What an answered request has done. -/
inductive Change (fs fs' : Fs) : Prop
  | same : fs' = fs → Change fs fs'
  | orphan {n now} : InodeNo n → ¬ fs.disk.Live n →
      Stocked fs fs' n (createdInode n now) [] [] → Change fs fs'
  | file {p n name now grown} : fs.disk.IsDirectory p → ProperName name → n ≠ 1 →
      Born fs fs' p n (.new n name false) (createdInode n now) [] [] grown → Change fs fs'
  | dir {p n b name now grown} : fs.disk.IsDirectory p → ProperName name → n ≠ 1 →
      Born fs fs' p n (.new n name true) (madeInode n b now) (dots n p) [b] grown → Change fs fs'
  | gone {p e name now freed} : fs.disk.IsDirectory p → Names fs.disk p name e → ProperName name →
      Gone fs fs' p e.inode.toNat name now freed → Change fs fs'
  | stalled {n new} : fs.disk.Live n → (fs.disk.inode n).isDir = false →
      Stalled fs fs' n new → Change fs fs'
  | wrote {n offset data new} : fs.disk.Live n → (fs.disk.inode n).isDir = false →
      Wrote fs fs' n offset data new → Change fs fs'
  | attributed {n} : fs.disk.Live n → Attributed fs fs' n → Change fs fs'

theorem Names.proper {d : Disk} {p : ℕ} {name : ByteArray} {e : DirEntry} (hname : EntryName name)
    (h : Names d p (Fs.nameOr "" name) e) : ProperName (Fs.nameOr "" name) := by
  refine ⟨fun h0 => ?_, EntryName.nameOr_ne (by decide) hname.ne_dot,
    EntryName.nameOr_ne (by decide) hname.ne_dotdot⟩
  have hempty := DirEntry.named_empty (Inode.mem_entries.mp h.mem_entries).2
  rw [← h0, h.named] at hempty
  cases hempty

theorem ProperName.ordinary {name : String} (h : ProperName name) {e : DirEntry}
    (he : e.named name = true) : e.ordinary = true := by
  refine DirEntry.ordinary_iff.mpr ⟨?_, ?_⟩
  · by_contra hdot
    exact h.ne_dot (DirEntry.named_unique he (by simpa using hdot))
  · by_contra hdot
    exact h.ne_dotdot (DirEntry.named_unique he (by simpa using hdot))

/-- An entry with a proper name is listed, so it names an inode in use. -/
theorem Named.live_of_named {d : Disk} (hd : Named d) {p : ℕ} (hp : d.IsDirectory p) {name : String}
    (h : ProperName name) {e : DirEntry} (he : e ∈ (d.inode p).entries d)
    (hname : e.named name = true) : d.Live e.inode.toNat :=
  hd.live p e (Disk.mem_listed.mpr ⟨hp, he, h.ordinary hname⟩)

/-- The hypothesis of the outcomes of `unlink` and `rmdir`. -/
theorem Named.live_of_nameOr {d : Disk} (hd : Named d) {p : ℕ} (hp : d.IsDirectory p)
    {name : ByteArray} (hname : EntryName name) :
    ∀ e ∈ (d.inode p).entries d, e.named (Fs.nameOr "" name) = true → d.Live e.inode.toNat := by
  intro e he hn
  refine hd.live_of_named hp ⟨fun h0 => ?_, EntryName.nameOr_ne (by decide) hname.ne_dot,
    EntryName.nameOr_ne (by decide) hname.ne_dotdot⟩ he hn
  rw [h0, DirEntry.named_empty (Inode.mem_entries.mp he).2] at hn
  cases hn

section Handle

variable {fs fs' : Fs} {reply : Reply} {now : ℕ → Int64}

theorem create_change (hc : Consistent fs) {p : ℕ} {name : ByteArray} (hp : fs.disk.IsDirectory p)
    (hname : EntryName name) (hsafe : fs.StepSafe (.create p name))
    (h : fs.create p name now = some (reply, fs')) : Change fs fs' := by
  cases create_outcome hc hp.1 hsafe h with
  | found _ => exact .same rfl
  | noInode _ _ => exact .same rfl
  | orphan _ hlo hhi hunused _ _ hs => exact .orphan (Or.inr (Or.inr ⟨hlo, hhi⟩)) hunused hs
  | created _ hlo _ _ hb => exact .file hp (hname.proper properName_unknown) (by omega) hb

theorem mkdir_change (hc : Consistent fs) {p : ℕ} {name : ByteArray} (hp : fs.disk.IsDirectory p)
    (hname : EntryName name) (hsafe : fs.StepSafe (.mkdir p name))
    (h : fs.mkdir p name now = some (reply, fs')) : Change fs fs' := by
  cases mkdirAttempt_outcome hc hp.1 hsafe (Fs.answered_eq_some.mp h) with
  | found _ => exact .same rfl
  | noInode _ _ => exact .same rfl
  | noBlock _ _ => exact .same rfl
  | made _ hlo _ _ hb => exact .dir hp (hname.proper properName_unknown) (by omega) hb

theorem unlink_change (hc : Consistent fs) (hd : Named fs.disk) {p : ℕ} {name : ByteArray}
    (hp : fs.disk.IsDirectory p) (hname : EntryName name)
    (h : fs.unlink p name now = some (reply, fs')) : Change fs fs' := by
  cases unlink_outcome hc hp.1 hp.2 (hd.live_of_nameOr hp hname) h with
  | missing _ => exact .same rfl
  | isDir _ _ => exact .same rfl
  | gone hn _ hg => exact .gone hp hn (hn.proper hname) hg

theorem rmdir_change (hc : Consistent fs) (hd : Named fs.disk) {p : ℕ} {name : ByteArray}
    (hp : fs.disk.IsDirectory p) (hname : EntryName name)
    (h : fs.rmdir p name now = some (reply, fs')) : Change fs fs' := by
  cases rmdir_outcome hc hp.1 (hd.live_of_nameOr hp hname) h with
  | missing _ => exact .same rfl
  | notDir _ _ => exact .same rfl
  | notEmpty _ _ => exact .same rfl
  | gone hn _ _ hg => exact .gone hp hn (hn.proper hname) hg

theorem write_change (hc : Consistent fs) {n : ℕ} {offset : Int64} {data : List UInt8}
    (hn : fs.disk.Live n) (hfile : (fs.disk.inode n).isDir = false)
    (hsafe : fs.StepSafe (.write n offset data))
    (h : fs.write n offset data now = some (reply, fs')) : Change fs fs' := by
  cases writeAttempt_outcome hc hn hsafe (Fs.answered_eq_some.mp h) with
  | empty _ => exact .same rfl
  | tooBig _ _ => exact .same rfl
  | stalled _ _ _ _ hs _ => exact .stalled hn hfile hs
  | wrote _ _ _ hw => exact .wrote hn hfile hw

/-- Every answered request of the kernel makes one of the changes. -/
theorem handle_change (hc : Consistent fs) (hd : Named fs.disk) {r : Request} (hr : fs.Conforms r)
    (hsafe : fs.StepSafe r) (h : fs.handle now r = some (reply, fs')) : Change fs fs' := by
  cases r with
  | getattr ino => exact .same (Fs.getattr_unchanged h)
  | readdir ino offset full => exact .same (Fs.readdir_unchanged h)
  | lookup p name => exact .same (Fs.lookup_unchanged h)
  | openFile ino flags uid gid => exact .same (Fs.openFile_unchanged h)
  | read ino offset size => exact .same (Fs.read_unchanged h)
  | create p name => exact create_change hc hr.1 hr.2 hsafe h
  | mkdir p name => exact mkdir_change hc hr.1 hr.2 hsafe h
  | rmdir p name => exact rmdir_change hc hd hr.1 hr.2 h
  | write n offset data => exact write_change hc hr.1 hr.2 hsafe h
  | unlink p name => exact unlink_change hc hd hr.1 hr.2 h
  | setattr n mode size => exact .attributed hr (@setattr_outcome _ _ _ hc hr mode size now _ h)

end Handle

end SimpleFS
