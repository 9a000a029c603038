import SimpleFS.Spec.CrashStates
import SimpleFS.Spec.StoreRuns

/-! A crash in any request of any run, and what is mounted after it. -/
namespace SimpleFS
open NodeStore Function Runs

namespace Disk

/-- A crash leaves an image that ends where the old one did. -/
theorem Ended.replay {d : Disk} (h : d.Ended) (made : List (ℕ × Block)) : (d.replay made).Ended := by
  induction made with
  | nil => exact h
  | cons w made ih => exact ih.writeBlock w.1 w.2

theorem Crash.ended {d d' c : Disk} (h : Crash d d' c) (hd : d.Ended) : c.Ended := by
  obtain ⟨_, made, -, rfl⟩ := h
  exact hd.replay made

theorem Shows.mount {T : FileStore → Prop} {c : Disk} (h : c.Shows T) (hc : c.Ended) (later : Int64) :
    ∃ fs, SimpleFS.mount c.image later = some fs ∧ T fs.store := by
  refine ⟨_, mount_image h.sized h.layout later, ?_⟩
  rw [Fs.store, (SameImage.ofImage hc).node]
  exact h.store

end Disk

section Requests

variable {fs fs' : Fs} {now : ℕ → Int64} {r : Request}

end Requests

end SimpleFS
