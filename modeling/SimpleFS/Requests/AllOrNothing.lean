import SimpleFS.Requests.WriteLimits

/-! `create` and `mkdir` take several things one after the other, and give nothing back when the
last one is not there: they are all or nothing only where the parent directory has a place. -/
namespace SimpleFS
open Bitmap

section Single

variable {fs fs' : Fs} {p n : ℕ}

/-- An inode number that came into use is a trace. -/
theorem Stocked.not_untraced {node : Inode} {slots : List DirEntry} {blocks : List ℕ}
    (h : Stocked fs fs' n node slots blocks) (hn : InodeNo n) (hunused : ¬ fs.disk.Live n)
    (hlink : node.nlink ≠ 0) : ¬ Untraced fs fs' := by
  intro hu
  apply hunused
  refine ⟨hn, ?_⟩
  rw [← hu.inode n hn, h.inode]
  exact hlink

theorem Stocked.room {node : Inode} {slots : List DirEntry} {blocks : List ℕ}
    (h : Stocked fs fs' n node slots blocks) (hs : fs.Synced) (hr : fs'.Refuses) :
    fs.room - blocks.length = 0 := by
  have hzero := hr.room_eq h.footprint.sized h.footprint.layout (h.footprint.synced (by simp) hs)
  have hsum := h.footprint.room
  omega

end Single

section Requests

variable {fs : Fs} {p : ℕ}

end Requests

section Full

/-- Names of every length from three on. -/
def longName : ℕ → String
  | 0 => "aaa"
  | k + 1 => longName k ++ "a"

theorem utf8ByteSize_longName (k : ℕ) : (longName k).utf8ByteSize = k + 3 := by
  induction k with
  | zero => decide
  | succ k ih =>
    rw [longName, String.utf8ByteSize_append, ih, show "a".utf8ByteSize = 1 by decide]

theorem entryName_longName (k : ℕ) : EntryName (longName k).toByteArray := by
  have hne : ∀ s : String, s.utf8ByteSize ≤ 2 → (longName k).toByteArray ≠ s.toByteArray := by
    intro s hs heq
    have hsize := congrArg ByteArray.size heq
    rw [String.size_toByteArray, String.size_toByteArray, utf8ByteSize_longName] at hsize
    omega
  constructor
  · exact hne "" (by decide)
  · exact hne "." (by decide)
  · exact hne ".." (by decide)

/-- The root holds `k` files, whose names have lengths up to `k + 2`, and its other slots are
unused. -/
structure Filled (fs : Fs) (k : ℕ) (slots : List DirEntry) : Prop where
  sound : BlockSound fs
  tree : TreeSound fs.disk
  root : fs.disk.IsDirectory 1
  table : (fs.disk.inode 1).table fs.disk = slots ++ List.replicate (13 - k) .blank
  names : ∀ x ∈ slots, x.isEmpty = false ∧ ∃ s, x.nameStr = some s ∧ s.utf8ByteSize ≤ k + 2
  unused : ∀ n, 1000 + k ≤ n → n ≤ 2000 → ¬ fs.disk.Live n

namespace Filled

variable {fs : Fs} {k : ℕ} {slots : List DirEntry}

theorem entries (h : Filled fs k slots) : (fs.disk.inode 1).entries fs.disk = slots :=
  Inode.entries_of_table (fun x hx => (h.names x hx).1) h.table

theorem readable (h : Filled fs k slots) : fs.disk.Readable 1 := by
  intro e he
  rw [h.entries] at he
  obtain ⟨-, s, hs, -⟩ := h.names e he
  simp [hs]

theorem lacks (h : Filled fs k slots) : (fs.disk.inode 1).Lacks fs.disk (longName k) := by
  intro e he
  refine ⟨h.readable e he, ?_⟩
  rw [h.entries] at he
  obtain ⟨-, s, hs, hsize⟩ := h.names e he
  rw [DirEntry.named, hs, beq_eq_false_iff_ne]
  intro heq
  rw [Option.some.inj heq, utf8ByteSize_longName] at hsize
  omega

/-- One file more. -/
theorem succ (h : Filled fs k slots) (hk : k < 13) :
    ∃ fs' slots', Filled fs' (k + 1) slots' ∧ fs'.room = fs.room := by
  have hs := h.sound
  have hname : Fs.nameOr "unknown" (longName k).toByteArray = longName k := by
    rw [Fs.nameOr, fromUTF8?_toByteArray]
    rfl
  have hcount : 13 - k = 13 - (k + 1) + 1 := by omega
  have htable := h.table
  rw [hcount, List.replicate_succ] at htable
  have hblank : DirEntry.blank ∈ (fs.disk.inode 1).table fs.disk := by
    rw [htable]
    simp
  obtain ⟨n, fs', grown, -, hlo, hhi, hleast, hb⟩ := create_created (longName k).toByteArray
    hs.toConsistent hs.synced (hs.reserved.stepSafe _) h.root.1 (hs.mapped 1 h.root.1) h.readable
    (by rw [hname]; exact h.lacks) ⟨.blank, hblank, DirEntry.isEmpty_blank⟩
    ⟨1000 + k, by omega, by omega, h.unused _ (le_refl _) (by omega)⟩ fun _ => 0
  rw [hname] at hb
  have hn : n ≤ 1000 + k := by
    by_contra hlt
    exact h.unused (1000 + k) (le_refl _) (by omega) (hleast _ (by omega) (by omega))
  obtain rfl : grown = [] := by
    rw [← List.length_eq_zero_iff, hb.length_grown h.root.1, if_neg]
    intro hall
    have := List.all_eq_true.mp hall _ hblank
    rw [DirEntry.isEmpty_blank] at this
    cases this
  have hproper := (entryName_longName k).proper properName_unknown
  rw [hname] at hproper
  have hchange := Change.file h.root hproper (by omega) hb
  have hroom := hb.footprint.room
  refine ⟨fs', slots ++ [.new n (longName k) false], ⟨hchange.blockSound hs,
    (hchange.treeChange hs.toConsistent).treeSound h.tree, ⟨⟨Or.inl rfl, ?_⟩, ?_⟩, ?_, ?_, ?_⟩,
    by simpa using hroom⟩
  · rw [hb.nlink]
    exact h.root.1.2
  · rw [Inode.isDir, hb.mode]
    exact h.root.2
  · rw [hb.table, htable, SlotTable.insert_of_split (fun x hx => (h.names x hx).1)
      DirEntry.isEmpty_blank, List.append_assoc, List.singleton_append]
  · intro x hx
    rcases List.mem_append.mp hx with hx | hx
    · obtain ⟨hempty, s, hs, hsize⟩ := h.names x hx
      exact ⟨hempty, s, hs, by omega⟩
    · rw [List.mem_singleton.mp hx]
      have hsize : (longName k).toByteArray.size = k + 3 := by
        rw [String.size_toByteArray, utf8ByteSize_longName]
      exact ⟨DirEntry.isEmpty_new _ _ hproper.ne_empty, _,
        DirEntry.nameStr_new_of_le _ _ (by omega), by rw [utf8ByteSize_longName]⟩
  · intro m hm hhi hlive
    refine h.unused m (by omega) hhi ?_
    exact (hb.footprint.live_iff (by simp; omega)).mp hlive

end Filled

end Full

end SimpleFS
