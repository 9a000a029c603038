import SimpleFS.Requests.Paths
import SimpleFS.Spec.Panics
import SimpleFS.Spec.PathMap

/-! `path_resolve` follows the names of the store, and so the answers given so far. -/
namespace SimpleFS
open NodeStore Runs

section Walks

variable {fs : Fs} {p q : ℕ} {c : String}

theorem isDirectory_iff : fs.disk.IsDirectory p ↔ ∃ a names, fs.store p = some (.dir a names) := by
  constructor
  · intro h
    exact ⟨_, _, node_of_isDirectory h⟩
  · intro h
    obtain ⟨a, names, hdir⟩ := h
    have hlive : fs.disk.Live p := node_ne_none_iff.mp (by
      rw [show fs.disk.node p = _ from hdir]
      exact Option.some_ne_none _)
    refine ⟨hlive, ?_⟩
    by_contra hfile
    have hnode := node_of_file hlive (by simpa using hfile)
    rw [show fs.disk.node p = _ from hdir] at hnode
    cases hnode

theorem isDirectory_of_child (h : fs.store.child p c = some q) : fs.disk.IsDirectory p := by
  obtain ⟨a, names, hdir, -⟩ := Store.exists_dir_of_child h
  exact isDirectory_iff.mpr ⟨a, names, hdir⟩

end Walks

section Paths

variable {fs : Fs} {p q m : ℕ} {components first : List String}

end Paths

section Follows

variable {fs fs' : Fs} {m m' : PathMap}

theorem FileStore.Rooted.reachable (h : fs.store.Rooted) : fs.disk.Reachable 1 :=
  .root (isDirectory_of_child h.dot)

end Follows

end SimpleFS
