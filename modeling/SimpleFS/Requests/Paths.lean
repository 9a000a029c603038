import SimpleFS.Requests.Space

/-! Paths: `path_resolve` is looking up the components one after the other. -/
namespace SimpleFS

section Components

end Components

/-- A name that an entry has is not longer than the field for it. -/
theorem DirEntry.utf8ByteSize_le {e : DirEntry} {s : String} (h : e.named s = true) :
    s.utf8ByteSize ≤ maxNameLen := by
  rw [named, beq_iff_eq, nameStr] at h
  split_ifs at h with hlen
  have hs := Option.some.inj h
  cases hbytes : String.fromUTF8? e.nameBytes with
  | none =>
    rw [hbytes, Option.getD_none] at hs
    rw [← hs]
    decide
  | some t =>
    rw [hbytes, Option.getD_some] at hs
    have hsize := congrArg ByteArray.size (toByteArray_of_fromUTF8? hbytes)
    rw [hs, String.size_toByteArray, show e.nameBytes.size = min e.nameLen.toNat 28 - 0 by
      rw [nameBytes, ← ByteArray.size_data, Array.size_extract, Vector.size_toArray]] at hsize
    omega

/-- What `lookup` does with one component: `dir_find`, then `read_inode`. -/
def Follows (fs : Fs) (dir : Inode) (component : String) (child : Inode) : Prop :=
  ∃ slot : Slot, dirFind fs.disk dir component = some (some slot) ∧
    readInode fs.disk fs.sb slot.1.inode.toNat = some child

/-- The same over a list of components, with the inodes that are reached in turn. -/
inductive Walk (fs : Fs) : Inode → List String → List Inode → Prop
  | nil (dir : Inode) : Walk fs dir [] []
  | cons {dir component child rest chain} : Follows fs dir component child →
      Walk fs child rest chain → Walk fs dir (component :: rest) (child :: chain)

section Loop

variable {fs : Fs} {dir : Inode} {c : String} {rest : List String}

theorem Walk.cons_iff {child : Inode} {chain : List Inode} :
    Walk fs dir (c :: rest) (child :: chain) ↔ Follows fs dir c child ∧ Walk fs child rest chain := by
  constructor
  · rintro (_ | ⟨hf, hw⟩)
    exact ⟨hf, hw⟩
  · rintro ⟨hf, hw⟩
    exact .cons hf hw

end Loop

section Sound

variable {fs : Fs} {q : ℕ}

/-- Every entry of a reachable directory names an inode in use, and a directory that it names can be
reached. -/
theorem Reachable.of_entry (ht : TreeSound fs.disk) (hq : fs.disk.Reachable q) {e : DirEntry}
    (he : e ∈ (fs.disk.inode q).entries fs.disk) : fs.disk.Live e.inode.toNat ∧
      ((fs.disk.inode e.inode.toNat).isDir = true → fs.disk.Reachable e.inode.toNat) := by
  have hreach : fs.disk.Reachable e.inode.toNat → fs.disk.Live e.inode.toNat ∧
      ((fs.disk.inode e.inode.toNat).isDir = true → fs.disk.Reachable e.inode.toNat) :=
    fun h => ⟨h.isDirectory.1, fun _ => h⟩
  by_cases hdot : e.named "." = true
  · obtain ⟨e', hfilter, hno⟩ := ht.dot q hq
    have hmem : e ∈ [e'] := hfilter ▸ List.mem_filter.mpr ⟨he, hdot⟩
    rw [List.mem_singleton.mp hmem, hno]
    exact ⟨hq.isDirectory.1, fun _ => hq⟩
  · by_cases hdotdot : e.named ".." = true
    · obtain ⟨e', hfilter, hroot, hparent⟩ := ht.dotdot q hq
      have hmem : e ∈ [e'] := hfilter ▸ List.mem_filter.mpr ⟨he, hdotdot⟩
      obtain rfl := List.mem_singleton.mp hmem
      cases hq with
      | root h1 =>
        rw [hroot rfl]
        exact ⟨h1.1, fun _ => .root h1⟩
      | @child p _ hp hmemq hdir =>
        by_cases h1 : q = 1
        · rw [hroot h1]
          exact ⟨(h1 ▸ hdir).1, fun _ => .root (h1 ▸ hdir)⟩
        · rw [hparent p h1 hp hmemq]
          exact ⟨hp.isDirectory.1, fun _ => hp⟩
    · have hlisted : e ∈ fs.disk.listed q := Disk.mem_listed.mpr ⟨hq.isDirectory, he,
        DirEntry.ordinary_iff.mpr ⟨by simpa using hdot, by simpa using hdotdot⟩⟩
      have hlive := ht.live q e hlisted
      exact ⟨hlive, fun hdir => .child hq (Disk.mem_children.mpr ⟨e, hlisted, rfl⟩) ⟨hlive, hdir⟩⟩

/-- A component that is found in a reachable directory fits the name field. -/
theorem Follows.reachable (hc : Consistent fs) (ht : TreeSound fs.disk) (hq : fs.disk.Reachable q)
    {c : String} {child : Inode} (h : Follows fs (fs.disk.inode q) c child) :
    c.utf8ByteSize ≤ maxNameLen ∧ ∃ m, child = fs.disk.inode m ∧
      (child.isDir = true → fs.disk.Reachable m) := by
  obtain ⟨slot, hfind, hread⟩ := h
  have hp := hc.placed hq.isDirectory.1
  obtain ⟨pre, post, hfirst⟩ := dirFind_eq_some hp.sized hp.onDisk hfind
  obtain ⟨hlive, hreach⟩ := Reachable.of_entry ht hq hfirst.mem_entries
  rw [hc.readInode hlive.1] at hread
  obtain rfl := Option.some.inj hread
  exact ⟨DirEntry.utf8ByteSize_le hfirst.named, _, rfl, hreach⟩

end Sound

end SimpleFS
