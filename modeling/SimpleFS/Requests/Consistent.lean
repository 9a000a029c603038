import SimpleFS.Image.Contents
import SimpleFS.Image.Release

/-! The states in which the requests do what they should: the layout of formatting, and blocks
that are owned exclusively. The number of blocks that a request allocates is computed from the
state before it. -/
namespace SimpleFS
open Scan Bitmap

structure Consistent (fs : Fs) : Prop where
  sized : fs.disk.Sized
  layout : Layout fs.sb
  owned : Owned fs.disk

namespace Consistent

variable {fs fs' : Fs}

theorem placed (hc : Consistent fs) {n : ℕ} (hn : fs.disk.Live n) : Placed fs (fs.disk.inode n) :=
  hc.owned.placed hc.sized hc.layout hn

theorem readInode (hc : Consistent fs) {n : ℕ} (hn : InodeNo n) :
    readInode fs.disk fs.sb n = some (fs.disk.inode n) :=
  hc.sized.readInode hc.layout hn.recordBlock_lt

theorem asU32_of_inodeNo {n : ℕ} (hn : InodeNo n) : asU32 n = n :=
  Nat.mod_eq_of_lt (by have := hn.le; omega)

theorem toNat_inodeNo {d : Disk} {n : ℕ} (hn : InodeNo n) : (d.inode n).inodeNo.toNat = n :=
  Disk.toNat_inodeNo_inode d (by have := hn.le; omega)

/-- An inode that shares no block with another keeps the others untouched when its own blocks are
written. -/
theorem held_disjoint (hc : Consistent fs) {n m : ℕ} (hne : m ≠ n) {own : List ℕ}
    (hown : own ⊆ fs.disk.held n) : ∀ b ∈ own, b ∉ fs.disk.held m :=
  fun _ hb hm => hne (hc.owned.exclusive.owner_unique hm (hown hb))

/-- One inode changed its blocks: it keeps some of its old ones and gets new ones. -/
theorem change (hc : Consistent fs) {n : ℕ} {own new : List ℕ}
    (hf : Footprint fs fs' [n] own new []) (hown : ∀ b ∈ own, b = 0 ∨ b ∈ fs.disk.held n)
    (hrefs : ∀ b ∈ fs'.disk.held n, b ∈ fs.disk.held n ∨ b ∈ new)
    (hnodup : (fs'.disk.held n).Nodup) : Consistent fs' where
  sized := hf.sized
  layout := hf.layout
  owned := by
    refine hf.owned hc.owned (fun m hm => hf.held_eq hc.owned hm fun b hb hmem => ?_) ?_ ?_ ?_
      (by simp)
    · rcases hown b hb with rfl | hn
      · have := (hc.owned.range m 0 hmem).1
        omega
      · exact hm (by simp [hc.owned.exclusive.owner_unique hmem hn])
    · intro r hr b hb
      obtain rfl := List.mem_singleton.mp hr
      exact (hrefs b hb).imp_left fun h => ⟨⟨r, hr, h⟩, by simp⟩
    · intro r hr
      obtain rfl := List.mem_singleton.mp hr
      exact hnodup
    · intro r hr s hs hne
      exact absurd ((List.mem_singleton.mp hr).trans (List.mem_singleton.mp hs).symm) hne

/-- An inode number came into use, with new blocks only. -/
theorem node (hc : Consistent fs) {n : ℕ} {new : List ℕ} (hf : Footprint fs fs' [n] [] new [])
    (hrefs : (fs'.disk.inode n).refs fs'.disk = new) : Consistent fs' := by
  have hheld : ∀ b ∈ fs'.disk.held n, b ∈ new := by
    intro b hb
    unfold Disk.held at hb
    split_ifs at hb
    · exact hrefs ▸ hb
    · simp at hb
  refine hc.change hf (by simp) (fun b hb => Or.inr (hheld b hb)) ?_
  unfold Disk.held
  split_ifs
  · rw [hrefs]
    exact hf.nodup
  · exact List.nodup_nil

end Consistent

/-- A directory in use got an entry. -/
theorem AddedEntry.consistent {fs fs' : Fs} {p : ℕ} {dir' : Inode} {e : DirEntry} {new : List ℕ}
    (hc : Consistent fs) (hp : fs.disk.Live p)
    (h : AddedEntry fs fs' (fs.disk.inode p) dir' e new) : Consistent fs' := by
  have hno := Consistent.toNat_inodeNo (d := fs.disk) hp.1
  have hf := h.footprint
  have hinode := h.inode
  rw [hno] at hf hinode
  have hlive : fs'.disk.Live p := ⟨hp.1, by rw [hinode, h.nlink]; exact hp.2⟩
  have hheld : (fs'.disk.held p).Perm (fs.disk.held p ++ new) := by
    rw [hlive.held, hp.held, hinode]
    exact h.refs_perm
  refine hc.change hf (fun b hb => Or.inr (hp.held ▸ hb)) (fun b hb => ?_) ?_
  · exact List.mem_append.mp (hheld.mem_iff.mp hb)
  · rw [hheld.nodup_iff]
    refine List.nodup_append.mpr ⟨hc.owned.exclusive.nodup p, hf.nodup, ?_⟩
    rintro b hb c hc' rfl
    have := (hf.fresh b hc').2.2.1
    simp [(hc.owned.range p b hb).2.2.1] at this

/-- A directory in use lost an entry. -/
theorem RemovedEntry.consistent {fs fs' : Fs} {p : ℕ} {dir' : Inode} {name : String} {now : Int64}
    (hc : Consistent fs) (hp : fs.disk.Live p)
    (h : RemovedEntry fs fs' (fs.disk.inode p) dir' name now) : Consistent fs' := by
  have hf := h.footprint
  have hinode := h.inode
  rw [Consistent.toNat_inodeNo hp.1] at hf hinode
  have hlive : fs'.disk.Live p := ⟨hp.1, by rw [hinode, h.dir_eq]; exact hp.2⟩
  have hheld : fs'.disk.held p = fs.disk.held p := by
    rw [hlive.held, hinode, h.refs, hp.held]
  refine hc.change hf (fun b hb => Or.inr (hp.held ▸ hb)) (fun b hb => Or.inl (hheld ▸ hb)) ?_
  rw [hheld]
  exact hc.owned.exclusive.nodup p

namespace Fs

/-- The name that an operation works with, and its fallback for bytes that are not UTF-8. -/
def nameOr (fallback : String) (name : ByteArray) : String := (String.fromUTF8? name).getD fallback

/-- The number of blocks that a request allocates when there are enough. -/
def asks (fs : Fs) : Request → ℕ
  | .create parent name =>
    match dirFind fs.disk (fs.disk.inode (asU32 parent)) (nameOr "unknown" name),
        fs.findInodeNo 1000 2000 with
    | some none, some (some _) => dirAsks fs.disk (fs.disk.inode (asU32 parent))
    | _, _ => 0
  | .mkdir parent name =>
    match dirFind fs.disk (fs.disk.inode (asU32 parent)) (nameOr "unknown" name),
        fs.findInodeNo 500 900 with
    | some none, some (some _) => 1 + dirAsks fs.disk (fs.disk.inode (asU32 parent))
    | _, _ => 0
  | .write ino offset data =>
    let inode := fs.disk.inode (asU32 ino)
    let required := requiredBlocks offset data.length
    if data.length = 0 ∨ required > .ofNat maxFileBlocks then 0
    else inode.growAsks (required.toUInt16.toNat - inode.blockCount.toNat)
  | _ => 0

/-- No block that the request allocates holds inode records. -/
def StepSafe (fs : Fs) (r : Request) : Prop := fs.disk.Roomy (fs.asks r)

end Fs

theorem Reserved.stepSafe {fs : Fs} (h : Reserved fs.disk) (r : Request) : fs.StepSafe r :=
  h.roomy _

/-- The search for a free inode number. -/
theorem findInodeNo_cases {fs : Fs} (hc : Consistent fs) {first last : ℕ}
    (hno : ∀ n, first ≤ n → n ≤ last → InodeNo n) (hle : first ≤ last) {r : Option ℕ}
    (h : fs.findInodeNo first last = some r) :
    (r = none ∧ ∀ n, first ≤ n → n ≤ last → fs.disk.Live n) ∨
      ∃ n, r = some n ∧ first ≤ n ∧ n ≤ last ∧ ¬ fs.disk.Live n ∧
        ∀ m, first ≤ m → m < n → fs.disk.Live m := by
  have hbody : ∀ n, first ≤ n → n ≤ last → ∀ q, (do
      let testInode ← SimpleFS.readInode fs.disk fs.sb n
      some (if testInode.nlink = 0 then some n else none)) = some q →
      (q = none → fs.disk.Live n) ∧ ∀ m, q = some m → m = n ∧ ¬ fs.disk.Live n := by
    intro n hlo hhi q hq
    rw [hc.readInode (hno n hlo hhi), Option.bind_eq_bind, Option.bind_some] at hq
    obtain rfl := Option.some.inj hq
    split_ifs with hz
    · exact ⟨by simp, fun m hm => ⟨(Option.some.inj hm).symm, fun hl => hl.2 hz⟩⟩
    · exact ⟨fun _ => ⟨hno n hlo hhi, hz⟩, by simp⟩
  rcases scanM_range'_eq_some h with ⟨rfl, hall⟩ | ⟨a, n, rfl, hlo, hhi, hn, hbefore⟩
  · exact Or.inl ⟨rfl, fun n hlo hhi => (hbody n hlo hhi _ (hall n hlo (by omega))).1 rfl⟩
  · obtain ⟨rfl, hfree⟩ := (hbody n hlo (by omega) _ hn).2 a rfl
    exact Or.inr ⟨a, rfl, hlo, by omega, hfree, fun m hm hma =>
      (hbody m hm (by omega) _ (hbefore m hm hma)).1 rfl⟩

end SimpleFS
