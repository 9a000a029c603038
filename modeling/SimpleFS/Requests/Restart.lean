import SimpleFS.Foundation.Simulation
import SimpleFS.Requests.BlockAccess
import SimpleFS.Requests.Crashes
import SimpleFS.Requests.Runs

/-! The image holds the whole state: the file system can be taken down after any request and mounted
again, and no later answer tells. -/
namespace SimpleFS
open Runs Bitmap

namespace Disk

/-- Past its end the image reads as zero. -/
def Ended (d : Disk) : Prop := ∀ k, d.size ≤ k → d.byte k = 0

/-- The same bytes; the writes that led to them may differ. -/
structure SameImage (d d' : Disk) : Prop where
  size : d'.size = d.size
  byte : d'.byte = d.byte

theorem Ended.writeBlock {d : Disk} (h : d.Ended) (b : ℕ) (buf : Block) :
    (d.writeBlock b buf).Ended := by
  intro k hk
  simp only [Disk.writeBlock] at hk ⊢
  rw [if_neg (by omega)]
  exact h k (by omega)

theorem ended_ofImage (image : List UInt8) : (ofImage image).Ended := by
  intro k hk
  simp only [ofImage] at hk ⊢
  rw [List.getD_eq_getElem?_getD, List.getElem?_eq_none hk, Option.getD_none]

theorem ended_truncate (d : Disk) (size : ℕ) : (d.truncate size).Ended := by
  intro k hk
  simp only [truncate] at hk ⊢
  exact if_neg (by omega)

theorem blockRelation_ended : BlockRelation fun d d' => d' = d ∧ d.Ended where
  readBlock b h := by rw [h.1]
  writeBlock b buf h := ⟨by rw [h.1], h.2.writeBlock b buf⟩

namespace SameImage

variable {d d' : Disk}

theorem block (h : SameImage d d') (b : ℕ) : d'.block b = d.block b := by
  unfold Disk.block
  rw [h.byte]

theorem blockRelation : BlockRelation SameImage where
  readBlock b h := by
    unfold Disk.readBlock
    rw [h.size, h.block]
  writeBlock b buf h := by
    constructor
    · simp only [Disk.writeBlock, h.size]
    · simp only [Disk.writeBlock, h.byte]

theorem image (h : SameImage d d') : d'.image = d.image := by
  unfold Disk.image
  rw [h.size, h.byte]

/-- Nothing but the log of the writes can differ. -/
theorem eq (h : SameImage d d') : d' = { d with writes := d'.writes } := by
  cases d'
  cases h.size
  cases h.byte
  rfl

theorem ofImage (h : d.Ended) : SameImage d (.ofImage d.image) := by
  have hlen : d.image.length = d.size := by
    rw [Disk.image, List.length_map, List.length_range]
  constructor
  · exact hlen
  · funext k
    simp only [Disk.ofImage]
    rw [List.getD_eq_getElem?_getD]
    rcases Nat.lt_or_ge k d.size with hk | hk
    · rw [Disk.image, List.getElem?_map, List.getElem?_range hk]
      rfl
    · rw [List.getElem?_eq_none (by omega), Option.getD_none, h k hk]

end SameImage

end Disk

/-- A request keeps the image ended. -/
theorem Fs.handle_ended {fs fs' : Fs} {now : ℕ → Int64} {r : Request} {reply : Reply}
    (h : fs.handle now r = some (reply, fs')) (he : fs.disk.Ended) : fs'.disk.Ended := by
  have hrel : fs.Related (fun d d' => d' = d ∧ d.Ended) fs := ⟨⟨rfl, he⟩, rfl⟩
  obtain ⟨_, -, hres⟩ := (fs.handle_related Disk.blockRelation_ended hrel now r).exists_of_some h
  obtain ⟨h'⟩ := hres
  exact h'.1.2

theorem Disk.Ended.foldl_writeBlock {place : ℕ → ℕ} {f : ℕ → Block} (l : List ℕ) :
    ∀ {d : Disk}, d.Ended → (l.foldl (fun d i => d.writeBlock (place i) (f i)) d).Ended := by
  induction l with
  | nil => exact fun h => h
  | cons i l ih => exact fun h => ih (h.writeBlock _ _)

theorem formatNewFs_ended {d : Disk} {now : Int64} {fs : Fs} (h : formatNewFs d now = some fs)
    (he : d.Ended) : fs.disk.Ended := by
  have hR := Disk.blockRelation_ended
  have hbits : (initBitmap (d.writeBlock 0 SuperBlock.initial.toBlock) .initial).Ended :=
    (he.writeBlock _ _).foldl_writeBlock _
  unfold formatNewFs at h
  rw [initSuperblock_eq] at h
  obtain ⟨⟨r, d₁, sb₁⟩, halloc, h⟩ := Option.bind_eq_some_iff.mp h
  obtain ⟨_, -, hrel⟩ := (hR.allocateBlock ⟨rfl, hbits⟩ _).exists_of_some halloc
  obtain ⟨⟨-, he₁⟩⟩ := hrel
  obtain ⟨b, -, h⟩ := Option.bind_eq_some_iff.mp h
  obtain ⟨d₂, hput, h⟩ := Option.bind_eq_some_iff.mp h
  obtain ⟨_, -, -, he₂⟩ := (hR.writeInode ⟨rfl, he₁.writeBlock _ _⟩ _ _).exists_of_some hput
  obtain rfl := Option.some.inj h
  exact he₂.writeBlock _ _

theorem mount_ended {image : List UInt8} {now : Int64} {fs : Fs} (h : mount image now = some fs) :
    fs.disk.Ended := by
  unfold mount at h
  dsimp only at h
  split_ifs at h with hsize
  · exact formatNewFs_ended h (Disk.ended_truncate _ _)
  · split at h
    · obtain rfl := Option.some.inj h
      exact Disk.ended_ofImage image
    · exact formatNewFs_ended h (Disk.ended_truncate _ _)

section Transfer

variable {s t s' : Fs}

theorem Fs.Related.conforms (h : Fs.Related Disk.SameImage t s) {r : Request} :
    s.Conforms r ↔ t.Conforms r := by
  obtain ⟨d, sb⟩ := s
  rw [show d = _ from h.1.eq]
  cases r <;> exact Iff.rfl

theorem Disk.SameImage.inode {d d' : Disk} (h : d.SameImage d') (n : ℕ) :
    d'.inode n = d.inode n := by
  unfold Disk.inode
  rw [h.block]

theorem Fs.Related.asks (h : Fs.Related Disk.SameImage t s) (r : Request) :
    s.asks r = t.asks r := by
  have hR := Disk.SameImage.blockRelation
  have hdir : ∀ dir, dirAsks s.disk dir = dirAsks t.disk dir := fun dir => by
    rw [h.1.eq]
    rfl
  cases r with
  | create parent name =>
    simp only [Fs.asks, hR.dirFind h.1, Fs.findInodeNo_related hR h, h.1.inode, hdir]
  | mkdir parent name =>
    simp only [Fs.asks, hR.dirFind h.1, Fs.findInodeNo_related hR h, h.1.inode, hdir]
  | write ino offset data => simp only [Fs.asks, h.1.inode]
  | _ => rfl

theorem Fs.Related.stepSafe (h : Fs.Related Disk.SameImage t s) {r : Request} :
    s.StepSafe r ↔ t.StepSafe r := by
  unfold Fs.StepSafe
  rw [h.asks, h.1.eq]
  exact Iff.rfl

/-- The step of one state is one of every state with the same image. -/
theorem Fs.Related.steps (h : Fs.Related Disk.SameImage t s) {e : Event} (hs : s.Steps e s') :
    ∃ t', t.Steps e t' ∧ Fs.Related Disk.SameImage t' s' := by
  have hsym : Fs.Related Disk.SameImage s t := ⟨⟨h.1.size.symm, h.1.byte.symm⟩, h.2.symm⟩
  obtain ⟨⟨_, t'⟩, ht, hres⟩ := (Fs.handle_related Disk.SameImage.blockRelation hsym e.now
    e.request).exists_of_some hs.answers
  cases hres with
  | mk hrel =>
    exact ⟨t', ⟨h.conforms.mp hs.conforms, h.stepSafe.mp hs.safe, ht⟩,
      ⟨hrel.1.size.symm, hrel.1.byte.symm⟩, hrel.2.symm⟩

end Transfer

/-- An image that `mount` formats: there is no superblock to be read, and no old record in the inode
table. -/
structure Fresh (image : List UInt8) : Prop where
  unread : image = [] ∨ readSuperblock (.ofImage image) = none
  blank : ((Disk.ofImage image).truncate diskSize).Blank

theorem fresh_nil : Fresh [] := ⟨Or.inl rfl, Disk.blank_empty⟩

theorem Fresh.mount {image : List UInt8} (h : Fresh image) (now : Int64) :
    ∃ fs, SimpleFS.mount image now = some fs ∧
      Formatted ((Disk.ofImage image).truncate diskSize) now (fun b => decide (b ≤ 31)) fs := by
  obtain ⟨fs, hformat, hf⟩ := formatNewFs_spec (d := (Disk.ofImage image).truncate diskSize) rfl now
  refine ⟨fs, ?_, hf⟩
  unfold SimpleFS.mount
  dsimp only
  split_ifs with hsize
  · exact hformat
  · rcases h.unread with rfl | hread
    · exact absurd rfl hsize
    · rw [hread]
      exact hformat

theorem Fresh.healthy {image : List UInt8} (h : Fresh image) {now : Int64} {fs : Fs}
    (hmount : SimpleFS.mount image now = some fs) : Healthy fs := by
  obtain ⟨fs', hmount', hf⟩ := h.mount now
  obtain rfl := Option.some.inj (hmount'.symm.trans hmount)
  exact hf.healthy h.blank

/-- What happens to the file system while it is in use: a request is answered, or it is taken down
and its image mounted again. -/
inductive Turn
  | request (e : Event)
  | restart (now : Int64)

def Turn.event? : Turn → Option Event
  | .request e => some e
  | .restart _ => none

/-- The turns of a file system whose requests are the steps `step`. -/
def Fs.Turns (step : Fs → Event → Fs → Prop) (fs : Fs) : Turn → Fs → Prop
  | .request e, fs' => step fs e fs'
  | .restart now, fs' => mount fs.disk.image now = some fs'

/-- Mounting the image of a sound state gives this state again. -/
theorem Healthy.mount_image {t s : Fs} (ht : Healthy t) (h : Fs.Related Disk.SameImage t s)
    (he : s.disk.Ended) (now : Int64) : ∃ s', mount s.disk.image now = some s' ∧
      Fs.Related Disk.SameImage t s' ∧ s'.disk.Ended := by
  have hsuper : SuperBlock.fromBytes (s.disk.block 0) = t.sb := by
    rw [h.1.block]
    exact ht.synced
  have hsized : s.disk.Sized := h.1.size.trans ht.sized
  have himage := Disk.SameImage.ofImage he
  refine ⟨_, SimpleFS.mount_image hsized (by rw [hsuper]; exact ht.layout) now, ⟨⟨?_, ?_⟩, hsuper⟩,
    Disk.ended_ofImage _⟩
  · exact himage.size.trans h.1.size
  · exact himage.byte.trans h.1.byte

/-- Restarts are not seen: without them the same requests get the same answers and lead to the same
image. The requests may be restricted in any way that only depends on the image. -/
theorem turns_simulate {step : Fs → Event → Fs → Prop}
    (hsteps : ∀ s e s', step s e s' → s.Steps e s')
    (hrelated : ∀ t s e s', Fs.Related Disk.SameImage t s → step s e s' →
      ∃ t', step t e t' ∧ Fs.Related Disk.SameImage t' s') :
    Simulates (Fs.Turns step) step Turn.event? fun s t =>
      Fs.Related Disk.SameImage t s ∧ Healthy t ∧ s.disk.Ended := by
  rintro s t i s' ⟨hrel, hhealthy, hended⟩ hturn
  cases i with
  | request e =>
    obtain ⟨t', ht, hrel'⟩ := hrelated t s e s' hrel hturn
    exact ⟨t', ht, hrel', (hsteps t e t' ht).healthy hhealthy,
      Fs.handle_ended (hsteps s e s' hturn).answers hended⟩
  | restart now =>
    obtain ⟨s₁, hmount, hrel', hended'⟩ := hhealthy.mount_image hrel hended now
    obtain rfl := Option.some.inj (hmount.symm.trans hturn)
    exact ⟨hrel', hhealthy, hended'⟩

theorem Fresh.related {image : List UInt8} (h : Fresh image) {now : Int64} {start : Fs}
    (hmount : SimpleFS.mount image now = some start) :
    Fs.Related Disk.SameImage start start ∧ Healthy start ∧ start.disk.Ended :=
  ⟨⟨⟨rfl, rfl⟩, rfl⟩, h.healthy hmount, mount_ended hmount⟩

/-- A file is created in a new image, which is then mounted again. -/
theorem exists_restarted : ∃ (start fs₁ fs : Fs) (e : Event), mount [] 0 = some start ∧
    e = ⟨.create 1 "a".toByteArray, fun _ => 0,
      .created 1 (inodeToAttr (createdInode 1000 0)) 0 1000 0⟩ ∧
    start.Steps e fs₁ ∧ mount fs₁.disk.image 0 = some fs := by
  obtain ⟨start, hmount, hformat⟩ := mount_nil 0
  obtain ⟨hsafe, fs₁, hcreate, -⟩ := hformat.create Disk.blank_empty entryName_a fun _ => 0
  have hstep : start.Steps ⟨.create 1 "a".toByteArray, fun _ => 0, _⟩ fs₁ :=
    ⟨⟨hformat.isDirectory_root, entryName_a⟩, hsafe, hcreate⟩
  obtain ⟨hrel, hhealthy, hended⟩ := fresh_nil.related hmount
  obtain ⟨fs, hagain, -⟩ := (hstep.healthy hhealthy).mount_image ⟨⟨rfl, rfl⟩, rfl⟩
    (Fs.handle_ended hstep.answers hended) 0
  exact ⟨start, fs₁, fs, _, hmount, rfl, hstep, hagain⟩

/-- A file system that is mounted again between requests answers as one that is not, and leaves the
same image, which can always be mounted. -/
theorem restarts_unseen {image : List UInt8} {now : Int64} {start fs : Fs} {turns : List Turn}
    (hfresh : Fresh image) (hmount : mount image now = some start)
    (hrun : History (Fs.Turns Fs.Steps) start turns fs) :
    (∃ fs', History Fs.Steps start (turns.filterMap Turn.event?) fs' ∧
      fs'.disk.image = fs.disk.image ∧ fs'.sb = fs.sb) ∧
    ∀ later, ∃ fs', mount fs.disk.image later = some fs' ∧ fs'.disk.image = fs.disk.image ∧
      fs'.sb = fs.sb := by
  have hsim := @turns_simulate Fs.Steps (fun _ _ _ h => h) fun _ _ _ _ h => h.steps
  obtain ⟨t, hhistory, hrel, hhealthy, hended⟩ := hsim.history (hfresh.related hmount) hrun
  refine ⟨⟨t, hhistory, hrel.1.image.symm, hrel.2.symm⟩, fun later => ?_⟩
  obtain ⟨fs', hlater, hrel', -⟩ := hhealthy.mount_image hrel hended later
  exact ⟨fs', hlater, hrel'.1.image.trans hrel.1.image.symm, hrel'.2.trans hrel.2.symm⟩

/-- The creation alone leads to the image that was mounted again. -/
theorem restarts_unseen_create : ∃ (start fs fs' : Fs) (e : Event),
    e.request = .create 1 "a".toByteArray ∧ mount [] 0 = some start ∧
    History (Fs.Turns Fs.Steps) start [Turn.request e, .restart 0] fs ∧
    History Fs.Steps start [e] fs' ∧ fs'.disk.image = fs.disk.image := by
  obtain ⟨start, fs₁, fs, e, hmount, rfl, hstep, hagain⟩ := exists_restarted
  have hrun : History (Fs.Turns Fs.Steps) start [Turn.request _, .restart 0] fs :=
    (Run.start.step (Turn.request _) hstep).step (.restart 0) hagain
  obtain ⟨⟨fs', hhistory, himage, -⟩, -⟩ := restarts_unseen fresh_nil hmount hrun
  exact ⟨start, fs, fs', _, rfl, hmount, hrun, hhistory, himage⟩

end SimpleFS
