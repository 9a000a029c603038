import SimpleFS.Requests.Restart
import SimpleFS.Spec.Refinement

/-! The whole life of a file system, with restarts in between, is one of the store. -/
namespace SimpleFS
open NodeStore Function Runs

/-- The steps of a store. -/
def FileStore.Steps (t : FileStore) (e : Event) (t' : FileStore) : Prop :=
  FileStore.Answers t e.request e.reply t'

theorem Disk.SameImage.node {d d' : Disk} (h : d.SameImage d') : d'.node = d.node := by
  rw [h.eq]
  rfl

theorem Fs.Related.fits {s t : Fs} (h : Fs.Related Disk.SameImage t s) {r : Request} :
    s.Fits r ↔ t.Fits r := by
  obtain ⟨d, sb⟩ := s
  rw [show d = _ from h.1.eq]
  cases r <;> exact Iff.rfl

section Start

variable {d : Disk} {now : Int64} {taken : ℕ → Bool} {fs : Fs}

theorem Formatted.store (h : Formatted d now taken fs) (hb : d.Blank) :
    fs.store = FileStore.initial := by
  funext n
  unfold FileStore.initial
  by_cases hn : n = 1
  · subst hn
    rw [update_self]
    exact node_madeInode (Or.inl rfl) (Or.inl rfl) h.root (h.root ▸ h.table_root)
  · rw [update_of_ne hn]
    exact node_eq_none_iff.mpr fun hl => hn ((h.live_iff hb).mp hl)

end Start

end SimpleFS
