import SimpleFS.Foundation.Runs
import SimpleFS.Requests.Soundness

/-! Runs of the file system under the requests of the kernel. -/
namespace SimpleFS
open Runs

/-- The state in which every request leaves a mounted image, as long as no inode record is in an
allocated block. -/
structure Healthy (fs : Fs) : Prop extends Consistent fs where
  synced : fs.Synced
  counted : fs.balance = 20480
  mapped : fs.disk.AllMapped
  tree : TreeSound fs.disk

theorem Change.healthy {fs fs' : Fs} (h : Change fs fs') (hs : Healthy fs) : Healthy fs' where
  toConsistent := h.consistent hs.toConsistent
  synced := h.synced hs.toConsistent hs.mapped hs.synced
  counted := (h.balance hs.toConsistent).trans hs.counted
  mapped := h.allMapped hs.toConsistent hs.mapped
  tree := (h.treeChange hs.toConsistent).treeSound hs.tree

theorem Formatted.healthy {d : Disk} {now : Int64} {taken : ℕ → Bool} {fs : Fs}
    (h : Formatted d now taken fs) (hb : d.Blank) : Healthy fs where
  toConsistent := h.consistent hb
  synced := h.synced
  counted := h.balance
  mapped _ hn := h.mapped hb hn
  tree := h.treeSound hb

theorem BlockSound.healthy {fs : Fs} (h : BlockSound fs) (ht : TreeSound fs.disk) : Healthy fs where
  toConsistent := h.toConsistent
  synced := h.synced
  counted := counted_iff_balance.mp h.counted
  mapped := h.mapped
  tree := ht

/-- A request and its reply, with the clock. -/
structure Event where
  request : Request
  now : ℕ → Int64
  reply : Reply

/-- An answered request of the kernel that allocates no block with inode records. -/
structure Fs.Steps (fs : Fs) (e : Event) (fs' : Fs) : Prop where
  conforms : fs.Conforms e.request
  safe : fs.StepSafe e.request
  answers : fs.handle e.now e.request = some (e.reply, fs')

theorem Fs.Steps.change {fs fs' : Fs} {e : Event} (h : fs.Steps e fs') (hs : Healthy fs) :
    Change fs fs' :=
  handle_change hs.toConsistent hs.tree.toNamed h.conforms h.safe h.answers

theorem Fs.Steps.healthy {fs fs' : Fs} {e : Event} (h : fs.Steps e fs') (hs : Healthy fs) :
    Healthy fs' :=
  (h.change hs).healthy hs

theorem healthy_of_run {γ : Type*} {note : Fs → Event → Fs → γ → γ} {start fs : Fs} {first g : γ}
    (h : Run Fs.Steps note start first fs g) (hs : Healthy start) : Healthy fs :=
  h.invariant_state hs fun _ _ _ hp hstep => hstep.healthy hp

end SimpleFS
