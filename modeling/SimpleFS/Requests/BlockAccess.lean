import SimpleFS.Foundation.Related
import SimpleFS.Fs

/-! The program sees the image through `read_block` and `write_block` only: what these two cannot
tell apart, no request can. -/
namespace SimpleFS
open Bitmap Scan Option.Rel

/-- A relation of disks that no reading of a block sees and that every writing of one keeps. -/
structure Disk.BlockRelation (R : Disk → Disk → Prop) : Prop where
  readBlock : ∀ {d d' : Disk} (b : ℕ), R d d' → d'.readBlock b = d.readBlock b
  writeBlock : ∀ {d d' : Disk} (b : ℕ) (buf : Block), R d d' →
    R (d.writeBlock b buf) (d'.writeBlock b buf)

/-- Related disks, and the same superblock in memory. -/
def Fs.Related (R : Disk → Disk → Prop) (fs fs' : Fs) : Prop :=
  R fs.disk fs'.disk ∧ fs'.sb = fs.sb

namespace Disk.BlockRelation

variable {R : Disk → Disk → Prop} (hR : BlockRelation R) {d d' : Disk}
include hR

section Reading

variable (h : R d d')
include h

theorem readSuperblock : SimpleFS.readSuperblock d' = SimpleFS.readSuperblock d := by
  simp only [SimpleFS.readSuperblock, hR.readBlock _ h]

theorem getBlock (i : Inode) (k : ℕ) : i.getBlock d' k = i.getBlock d k := by
  simp only [Inode.getBlock, hR.readBlock _ h]

theorem readInode (sb : SuperBlock) (n : ℕ) :
    SimpleFS.readInode d' sb n = SimpleFS.readInode d sb n := by
  simp only [SimpleFS.readInode, hR.readBlock _ h]

theorem dirLookup (dir : Inode) : SimpleFS.dirLookup d' dir = SimpleFS.dirLookup d dir := by
  simp only [SimpleFS.dirLookup, hR.getBlock h, hR.readBlock _ h]

theorem dirFind (dir : Inode) (name : String) :
    SimpleFS.dirFind d' dir name = SimpleFS.dirFind d dir name := by
  simp only [SimpleFS.dirFind, hR.getBlock h, hR.readBlock _ h]

theorem findFreeSlot (dir : Inode) :
    SimpleFS.findFreeSlot d' dir = SimpleFS.findFreeSlot d dir := by
  simp only [SimpleFS.findFreeSlot, hR.getBlock h, hR.readBlock _ h]

theorem readLoop (i : Inode) (turns : ℕ) : ∀ remaining k off : ℕ,
    Fs.readLoop d' i turns remaining k off = Fs.readLoop d i turns remaining k off := by
  induction turns with
  | zero => exact fun _ _ _ => rfl
  | succ turns ih =>
    intro remaining k off
    simp only [Fs.readLoop, hR.getBlock h, hR.readBlock _ h, ih]

end Reading

section Writing

variable (h : R d d') (sb : SuperBlock)
include h

theorem updateBit (b : ℕ) (f : UInt8 → UInt8 → UInt8) (free : UInt32) :
    Option.Rel (Paired R) (Bitmap.updateBit d sb b f free) (Bitmap.updateBit d' sb b f free) := by
  unfold Bitmap.updateBit
  refine bind_eq (hR.readBlock _ h) fun buf => ?_
  exact .some ⟨hR.writeBlock _ _ (hR.writeBlock _ _ h)⟩

theorem allocateBlock : Option.Rel (Tagged (Paired R)) (Bitmap.allocateBlock d sb)
    (Bitmap.allocateBlock d' sb) := by
  unfold Bitmap.allocateBlock
  split_ifs
  · exact .some ⟨⟨h⟩⟩
  refine bind_eq (hR.readSuperblock h) fun sbLocal => ?_
  simp only [hR.readBlock _ h]
  refine bind_eq rfl fun found => ?_
  cases found with
  | none => exact .some ⟨⟨h⟩⟩
  | some b =>
    dsimp only
    split_ifs
    · exact .some ⟨⟨h⟩⟩
    refine (hR.updateBit h sb b _ _).bind ?_
    rintro _ _ @⟨d₁, d₁', sb₁, h₁⟩
    exact .some ⟨⟨h₁⟩⟩

theorem writeInode (i : Inode) :
    Option.Rel R (SimpleFS.writeInode d sb i) (SimpleFS.writeInode d' sb i) := by
  unfold SimpleFS.writeInode
  refine bind_eq (hR.readBlock _ h) fun buf => ?_
  exact .some (hR.writeBlock _ _ h)

theorem dirAddEntry (dir : Inode) (name : String) (child : ℕ) (isDir : Bool) (now : Int64) :
    Option.Rel (Tagged (Paired R)) (SimpleFS.dirAddEntry d sb dir name child isDir now)
      (SimpleFS.dirAddEntry d' sb dir name child isDir now) := by
  unfold SimpleFS.dirAddEntry
  rw [hR.dirFind h, hR.findFreeSlot h]
  refine bind_eq rfl fun found => ?_
  split_ifs
  · exact .some ⟨⟨h⟩⟩
  refine bind_eq rfl fun free => ?_
  cases free with
  | some slot =>
    obtain ⟨buf, e, b, offset⟩ := slot
    refine (hR.writeInode (hR.writeBlock _ _ h) sb _).bind ?_
    intro d₁ d₁' h₁
    exact .some ⟨⟨h₁⟩⟩
  | none =>
    dsimp only
    split_ifs
    · refine (hR.allocateBlock h sb).bind ?_
      rintro _ _ @⟨newBlock, _, _, @⟨d₁, d₁', sb₁, h₁⟩⟩
      cases newBlock with
      | none => exact .some ⟨⟨h₁⟩⟩
      | some b =>
        refine (hR.writeInode (hR.writeBlock _ _ h₁) _ _).bind ?_
        intro d₂ d₂' h₂
        exact .some ⟨⟨h₂⟩⟩
    · exact .some ⟨⟨h⟩⟩

theorem dirRemoveEntry (dir : Inode) (name : String) (now : Int64) :
    Option.Rel (Tagged (Paired R)) (SimpleFS.dirRemoveEntry d sb dir name now)
      (SimpleFS.dirRemoveEntry d' sb dir name now) := by
  unfold SimpleFS.dirRemoveEntry
  rw [hR.dirFind h]
  refine bind_eq rfl fun found => ?_
  cases found with
  | none => exact .some ⟨⟨h⟩⟩
  | some slot =>
    obtain ⟨e, b, offset⟩ := slot
    refine bind_eq (hR.readBlock _ h) fun buf => ?_
    refine (hR.writeInode (hR.writeBlock _ _ h) sb _).bind ?_
    intro d₁ d₁' h₁
    exact .some ⟨⟨h₁⟩⟩

theorem freeDataBlocks (i : Inode) :
    Option.Rel (Paired R) (Fs.freeDataBlocks d sb i) (Fs.freeDataBlocks d' sb i) := by
  refine foldlM ?_ ⟨h⟩
  rintro _ _ k @⟨d₁, d₁', sb₁, h₁⟩
  unfold Fs.freeDataBlock
  refine bind_eq (hR.getBlock h₁ i k) fun found => ?_
  cases found with
  | none => exact .some ⟨h₁⟩
  | some b => exact hR.updateBit h₁ _ _ _ _

theorem freeIndirectBlock (i : Inode) :
    Option.Rel (Paired R) (Fs.freeIndirectBlock d sb i) (Fs.freeIndirectBlock d' sb i) := by
  unfold Fs.freeIndirectBlock
  split_ifs
  · exact hR.updateBit h sb _ _ _
  · exact .some ⟨h⟩

theorem attachBlock (i : Inode) (b : ℕ) :
    Option.Rel (Tagged (Paired R)) (Fs.attachBlock d sb i b) (Fs.attachBlock d' sb i b) := by
  unfold Fs.attachBlock
  dsimp only
  split_ifs
  · exact .some ⟨⟨h⟩⟩
  · refine (hR.allocateBlock h sb).bind ?_
    rintro _ _ @⟨indirect, _, _, @⟨d₁, d₁', sb₁, h₁⟩⟩
    cases indirect with
    | none => exact .some ⟨⟨h₁⟩⟩
    | some c => exact .some ⟨⟨hR.writeBlock _ _ h₁⟩⟩
  · exact bind_eq (hR.readBlock _ h) fun buf => .none
  · exact bind_eq (hR.readBlock _ h) fun buf => .some ⟨⟨hR.writeBlock _ _ h⟩⟩

theorem growStep (i : Inode) :
    Option.Rel (Tagged (Paired R)) (Fs.growStep d sb i) (Fs.growStep d' sb i) := by
  unfold Fs.growStep
  refine (hR.allocateBlock h sb).bind ?_
  rintro _ _ @⟨newBlock, _, _, @⟨d₁, d₁', sb₁, h₁⟩⟩
  cases newBlock with
  | none => exact .some ⟨⟨h₁⟩⟩
  | some b =>
    refine (hR.attachBlock h₁ sb₁ i b).bind ?_
    rintro _ _ @⟨inode, _, _, @⟨d₂, d₂', sb₂, h₂⟩⟩
    cases inode with
    | none => exact .some ⟨⟨h₂⟩⟩
    | some j => exact .some ⟨⟨hR.writeBlock _ _ h₂⟩⟩

end Writing

theorem growLoop (turns : ℕ) : ∀ {d d' : Disk} (sb : SuperBlock) (i : Inode), R d d' →
    Option.Rel (Tagged (Paired R)) (Fs.growLoop turns d sb i) (Fs.growLoop turns d' sb i) := by
  induction turns with
  | zero => exact fun _ _ h => .some ⟨⟨h⟩⟩
  | succ turns ih =>
    intro d d' sb i h
    refine (hR.growStep h sb i).bind ?_
    rintro _ _ @⟨growth, _, _, @⟨d₁, d₁', sb₁, h₁⟩⟩
    cases growth with
    | grown j => exact ih sb₁ j h₁
    | full => exact .some ⟨⟨h₁⟩⟩
    | stuck => exact .some ⟨⟨h₁⟩⟩

theorem writeLoop (i : Inode) (turns : ℕ) : ∀ {d d' : Disk} (k off : ℕ) (data : List UInt8),
    R d d' → Option.Rel (Tagged R) (Fs.writeLoop i turns d k off data)
      (Fs.writeLoop i turns d' k off data) := by
  induction turns with
  | zero => exact fun _ _ _ h => .some ⟨h⟩
  | succ turns ih =>
    intro d d' k off data h
    unfold Fs.writeLoop
    split_ifs
    · exact .some ⟨h⟩
    refine bind_eq (hR.getBlock h i k) fun found => ?_
    cases found with
    | none => exact .some ⟨h⟩
    | some b =>
      refine bind_eq (hR.readBlock _ h) fun buf => ?_
      exact ih _ _ _ (hR.writeBlock _ _ h)

end Disk.BlockRelation

namespace Fs

/-- An attempt that is answered in one of two related states is answered in the other. -/
theorem answered_related {R : Disk → Disk → Prop} {attempt attempt' : Option Attempt}
    (h : Option.Rel (Tagged (Fs.Related R)) attempt attempt') :
    Option.Rel (Tagged (Fs.Related R)) (answered attempt) (answered attempt') := by
  refine h.bind ?_
  rintro _ _ @⟨reply, fs₁, fs₁', h₁⟩
  cases reply with
  | none => exact .none
  | some r => exact .some ⟨h₁⟩

variable {R : Disk → Disk → Prop} (hR : Disk.BlockRelation R) {fs fs' : Fs}
include hR

theorem findInodeNo_related (h : fs.Related R fs') (first last : ℕ) :
    fs'.findInodeNo first last = fs.findInodeNo first last := by
  simp only [findInodeNo, h.2, hR.readInode h.1]

theorem getattr_related (h : fs.Related R fs') (ino : ℕ) :
    Option.Rel (Tagged (Fs.Related R)) (fs.getattr ino) (fs'.getattr ino) := by
  unfold getattr
  rw [h.2]
  refine bind_eq (hR.readInode h.1 _ _) fun inode => ?_
  split_ifs <;> exact .some ⟨h⟩

theorem readdir_related (h : fs.Related R fs') (ino : ℕ) (offset : Int64)
    (full : List DirItem → DirItem → Bool) :
    Option.Rel (Tagged (Fs.Related R)) (fs.readdir ino offset full)
      (fs'.readdir ino offset full) := by
  unfold readdir
  rw [h.2]
  refine bind_eq (hR.readInode h.1 _ _) fun inode => ?_
  split_ifs
  · exact .some ⟨h⟩
  · exact bind_eq (hR.dirLookup h.1 _) fun entries => bind_eq rfl fun items => .some ⟨h⟩

theorem lookup_related (h : fs.Related R fs') (parent : ℕ) (name : ByteArray) :
    Option.Rel (Tagged (Fs.Related R)) (fs.lookup parent name) (fs'.lookup parent name) := by
  unfold lookup
  rw [h.2]
  refine bind_eq (hR.readInode h.1 _ _) fun parentInode => ?_
  refine bind_eq (hR.dirFind h.1 _ _) fun found => ?_
  cases found with
  | none => exact .some ⟨h⟩
  | some slot => exact bind_eq (hR.readInode h.1 _ _) fun child => .some ⟨h⟩

theorem openFile_related (h : fs.Related R fs') (ino : ℕ) (flags uid gid : UInt32) :
    Option.Rel (Tagged (Fs.Related R)) (fs.openFile ino flags uid gid)
      (fs'.openFile ino flags uid gid) := by
  unfold openFile
  rw [h.2]
  refine bind_eq (hR.readInode h.1 _ _) fun inode => ?_
  dsimp only
  split_ifs <;> exact .some ⟨h⟩

theorem read_related (h : fs.Related R fs') (ino : ℕ) (offset : Int64) (size : UInt32) :
    Option.Rel (Tagged (Fs.Related R)) (fs.read ino offset size) (fs'.read ino offset size) := by
  unfold read
  rw [h.2]
  refine bind_eq (hR.readInode h.1 _ _) fun inode => ?_
  split_ifs
  · exact .some ⟨h⟩
  · exact bind_eq (hR.readLoop h.1 _ _ _ _ _) fun result => .some ⟨h⟩

theorem create_related (h : fs.Related R fs') (parent : ℕ) (name : ByteArray) (now : ℕ → Int64) :
    Option.Rel (Tagged (Fs.Related R)) (fs.create parent name now)
      (fs'.create parent name now) := by
  unfold create
  rw [h.2, findInodeNo_related hR h]
  refine bind_eq (hR.readInode h.1 _ _) fun parentInode => ?_
  refine bind_eq (hR.dirFind h.1 _ _) fun found => ?_
  split_ifs
  · exact .some ⟨h⟩
  refine bind_eq rfl fun number => ?_
  cases number with
  | none => exact .some ⟨h⟩
  | some n =>
    refine (hR.writeInode h.1 fs.sb _).bind fun d₁ d₁' h₁ => ?_
    refine (hR.dirAddEntry h₁ fs.sb _ _ _ _ _).bind ?_
    rintro _ _ @⟨result, _, _, @⟨d₂, d₂', rest, h₂⟩⟩
    cases result with
    | error e => exact .some ⟨h₂, rfl⟩
    | ok u => exact .some ⟨h₂, rfl⟩

theorem mkdirAttempt_related (h : fs.Related R fs') (parent : ℕ) (name : ByteArray)
    (now : ℕ → Int64) : Option.Rel (Tagged (Fs.Related R)) (fs.mkdirAttempt parent name now)
      (fs'.mkdirAttempt parent name now) := by
  unfold mkdirAttempt
  rw [h.2, findInodeNo_related hR h]
  refine bind_eq (hR.readInode h.1 _ _) fun parentInode => ?_
  refine bind_eq (hR.dirFind h.1 _ _) fun found => ?_
  split_ifs
  · exact .some ⟨h⟩
  refine bind_eq rfl fun number => ?_
  cases number with
  | none => exact .some ⟨h⟩
  | some n =>
    refine (hR.allocateBlock h.1 fs.sb).bind ?_
    rintro _ _ @⟨dataBlock, _, _, @⟨d₁, d₁', sb₁, h₁⟩⟩
    cases dataBlock with
    | none => exact .some ⟨h₁, rfl⟩
    | some b =>
      refine (hR.writeInode (hR.writeBlock _ _ h₁) sb₁ _).bind fun d₂ d₂' h₂ => ?_
      refine (hR.dirAddEntry h₂ sb₁ _ _ _ _ _).bind ?_
      rintro _ _ @⟨result, _, _, @⟨d₃, d₃', rest, h₃⟩⟩
      cases result with
      | error e => exact .some ⟨h₃, rfl⟩
      | ok u => exact .some ⟨h₃, rfl⟩

theorem rmdir_related (h : fs.Related R fs') (parent : ℕ) (name : ByteArray) (now : ℕ → Int64) :
    Option.Rel (Tagged (Fs.Related R)) (fs.rmdir parent name now) (fs'.rmdir parent name now) := by
  unfold rmdir
  rw [h.2]
  refine bind_eq (hR.readInode h.1 _ _) fun parentInode => ?_
  refine bind_eq (hR.dirFind h.1 _ _) fun found => ?_
  cases found with
  | none => exact .some ⟨h⟩
  | some slot =>
    refine bind_eq (hR.readInode h.1 _ _) fun child => ?_
    split_ifs
    · exact .some ⟨h⟩
    refine bind_eq (hR.dirLookup h.1 _) fun entries => ?_
    split_ifs
    · exact .some ⟨h⟩
    refine (hR.freeDataBlocks h.1 fs.sb _).bind ?_
    rintro _ _ @⟨d₁, d₁', sb₁, h₁⟩
    refine (hR.dirRemoveEntry h₁ sb₁ _ _ _).bind ?_
    rintro _ _ @⟨result, _, _, @⟨d₂, d₂', dir, h₂⟩⟩
    cases result with
    | error e => exact .none
    | ok u => exact (hR.writeInode h₂ sb₁ _).bind fun d₃ d₃' h₃ => .some ⟨h₃, rfl⟩

theorem writeAttempt_related (h : fs.Related R fs') (ino : ℕ) (offset : Int64) (data : List UInt8)
    (now : ℕ → Int64) : Option.Rel (Tagged (Fs.Related R)) (fs.writeAttempt ino offset data now)
      (fs'.writeAttempt ino offset data now) := by
  unfold writeAttempt
  rw [h.2]
  refine bind_eq (hR.readInode h.1 _ _) fun inode => ?_
  dsimp only
  split_ifs
  · exact .some ⟨h⟩
  · exact .some ⟨h⟩
  refine (hR.growLoop _ fs.sb _ h.1).bind ?_
  rintro _ _ @⟨growth, _, _, @⟨d₁, d₁', sb₁, h₁⟩⟩
  cases growth with
  | full => exact .some ⟨h₁, rfl⟩
  | stuck => exact .some ⟨h₁, rfl⟩
  | grown i =>
    refine (hR.writeLoop i _ _ _ _ h₁).bind ?_
    rintro _ _ @⟨found, d₂, d₂', h₂⟩
    cases found with
    | false => exact .some ⟨h₂, rfl⟩
    | true => exact (hR.writeInode h₂ sb₁ _).bind fun d₃ d₃' h₃ => .some ⟨h₃, rfl⟩

theorem unlink_related (h : fs.Related R fs') (parent : ℕ) (name : ByteArray) (now : ℕ → Int64) :
    Option.Rel (Tagged (Fs.Related R)) (fs.unlink parent name now)
      (fs'.unlink parent name now) := by
  unfold unlink
  rw [h.2]
  refine bind_eq (hR.readInode h.1 _ _) fun parentInode => ?_
  refine bind_eq (hR.dirFind h.1 _ _) fun found => ?_
  cases found with
  | none => exact .some ⟨h⟩
  | some slot =>
    refine bind_eq (hR.readInode h.1 _ _) fun inode => ?_
    split_ifs
    · exact .some ⟨h⟩
    refine (hR.freeDataBlocks h.1 fs.sb _).bind ?_
    rintro _ _ @⟨d₁, d₁', sb₁, h₁⟩
    refine (hR.freeIndirectBlock h₁ sb₁ _).bind ?_
    rintro _ _ @⟨d₂, d₂', sb₂, h₂⟩
    refine (hR.writeInode h₂ sb₂ _).bind fun d₃ d₃' h₃ => ?_
    refine (hR.dirRemoveEntry h₃ sb₂ _ _ _).bind ?_
    rintro _ _ @⟨result, _, _, @⟨d₄, d₄', dir, h₄⟩⟩
    cases result with
    | error e => exact .none
    | ok u => exact .some ⟨h₄, rfl⟩

theorem setattr_related (h : fs.Related R fs') (ino : ℕ) (mode : Option UInt32)
    (size : Option UInt64) (now : ℕ → Int64) :
    Option.Rel (Tagged (Fs.Related R)) (fs.setattr ino mode size now)
      (fs'.setattr ino mode size now) := by
  unfold setattr
  rw [h.2]
  refine bind_eq (hR.readInode h.1 _ _) fun inode => ?_
  exact (hR.writeInode h.1 fs.sb _).bind fun d₁ d₁' h₁ => .some ⟨h₁, rfl⟩

/-- Related states answer alike and stay related. -/
theorem handle_related (h : fs.Related R fs') (now : ℕ → Int64) (r : Request) :
    Option.Rel (Tagged (Fs.Related R)) (fs.handle now r) (fs'.handle now r) := by
  cases r with
  | getattr ino => exact getattr_related hR h ino
  | readdir ino offset full => exact readdir_related hR h ino offset full
  | lookup parent name => exact lookup_related hR h parent name
  | openFile ino flags uid gid => exact openFile_related hR h ino flags uid gid
  | read ino offset size => exact read_related hR h ino offset size
  | create parent name => exact create_related hR h parent name now
  | mkdir parent name => exact answered_related (mkdirAttempt_related hR h parent name now)
  | rmdir parent name => exact rmdir_related hR h parent name now
  | write ino offset data => exact answered_related (writeAttempt_related hR h ino offset data now)
  | unlink parent name => exact unlink_related hR h parent name now
  | setattr ino mode size => exact setattr_related hR h ino mode size now

end Fs

end SimpleFS
