import Mathlib.Data.List.Perm.Subperm
import Mathlib.Logic.Relation
import SimpleFS.Image.Names
import SimpleFS.Image.Ownership

/-! The tree of directories that the entries make, and what a change of one directory does to it. -/
namespace SimpleFS

namespace Disk

/-- Inode `n` is a directory in use. -/
def IsDirectory (d : Disk) (n : ℕ) : Prop := d.Live n ∧ (d.inode n).isDir = true

instance (d : Disk) (n : ℕ) : Decidable (d.IsDirectory n) := inferInstanceAs (Decidable (_ ∧ _))

/-- The entries of directory `p` other than `.` and `..`. -/
def listed (d : Disk) (p : ℕ) : List DirEntry :=
  if d.IsDirectory p then ((d.inode p).entries d).filter DirEntry.ordinary else []

/-- The inodes that these entries name. -/
def children (d : Disk) (p : ℕ) : List ℕ := (d.listed p).map fun e => e.inode.toNat

/-- The directories found from the root. -/
inductive Reachable (d : Disk) : ℕ → Prop
  | root : d.IsDirectory 1 → d.Reachable 1
  | child {p q} : d.Reachable p → q ∈ d.children p → d.IsDirectory q → d.Reachable q

/-- The `..` of directory `q` names `p`. -/
def Up (d : Disk) (q p : ℕ) : Prop :=
  ∃ e ∈ (d.inode q).entries d, e.named ".." = true ∧ e.inode.toNat = p

theorem Reachable.isDirectory {d : Disk} {q : ℕ} (h : d.Reachable q) : d.IsDirectory q := by
  cases h with
  | root h => exact h
  | child _ _ h => exact h

theorem IsDirectory.listed {d : Disk} {p : ℕ} (h : d.IsDirectory p) :
    d.listed p = ((d.inode p).entries d).filter DirEntry.ordinary := if_pos h

theorem listed_of_not_isDirectory {d : Disk} {p : ℕ} (h : ¬ d.IsDirectory p) : d.listed p = [] :=
  if_neg h

theorem mem_listed {d : Disk} {p : ℕ} {e : DirEntry} :
    e ∈ d.listed p ↔
      d.IsDirectory p ∧ e ∈ (d.inode p).entries d ∧ e.ordinary = true := by
  unfold Disk.listed
  split_ifs with h <;> simp [h]

theorem mem_children {d : Disk} {p q : ℕ} :
    q ∈ d.children p ↔ ∃ e ∈ d.listed p, e.inode.toNat = q := by
  simp [children]

theorem isDirectory_of_mem_children {d : Disk} {p q : ℕ} (h : q ∈ d.children p) :
    d.IsDirectory p := by
  obtain ⟨e, he, -⟩ := mem_children.mp h
  exact (mem_listed.mp he).1

end Disk

/-- Every entry names an inode in use, and no inode has two names. -/
structure Named (d : Disk) : Prop where
  live : ∀ p, ∀ e ∈ d.listed p, d.Live e.inode.toNat
  exclusive : Exclusive d.children

/-- The directories make a tree, in which each knows its parent. -/
structure TreeSound (d : Disk) : Prop extends Named d where
  typed : ∀ p, ∀ e ∈ d.listed p,
    e.entryType = if (d.inode e.inode.toNat).isDir then 2 else 1
  dot : ∀ q, d.Reachable q → ∃ e,
    ((d.inode q).entries d).filter (DirEntry.named ".") = [e] ∧ e.inode.toNat = q
  dotdot : ∀ q, d.Reachable q → ∃ e,
    ((d.inode q).entries d).filter (DirEntry.named "..") = [e] ∧ (q = 1 → e.inode.toNat = 1) ∧
      ∀ p, q ≠ 1 → d.Reachable p → q ∈ d.children p → e.inode.toNat = p
  rooted : ∀ q, d.Reachable q → Relation.ReflTransGen d.Up q 1

/-- Following `..` leads to the root when each directory names the one that holds it. -/
theorem rooted_of_dotdot {d : Disk} (h : ∀ q, d.Reachable q → ∃ e,
    ((d.inode q).entries d).filter (DirEntry.named "..") = [e] ∧ (q = 1 → e.inode.toNat = 1) ∧
      ∀ p, q ≠ 1 → d.Reachable p → q ∈ d.children p → e.inode.toNat = p) {q : ℕ}
    (hq : d.Reachable q) : Relation.ReflTransGen d.Up q 1 := by
  induction hq with
  | root => exact .refl
  | @child p q hp hmem hdir ih =>
    by_cases h1 : q = 1
    · rw [h1]
    · obtain ⟨e, hfilter, -, hholder⟩ := h q (.child hp hmem hdir)
      have he : e ∈ ((d.inode q).entries d).filter (DirEntry.named "..") := by simp [hfilter]
      obtain ⟨hentry, hname⟩ := List.mem_filter.mp he
      exact .head ⟨e, hentry, hname, hholder p h1 hp hmem⟩ ih

theorem Named.live_of_mem_children {d : Disk} (h : Named d) {p q : ℕ} (hq : q ∈ d.children p) :
    d.Live q := by
  obtain ⟨e, he, rfl⟩ := Disk.mem_children.mp hq
  exact h.live p e he

/-- A directory that is found from the root and has two entries at most lists nothing. -/
theorem TreeSound.listed_eq_nil {d : Disk} (h : TreeSound d) {q : ℕ} (hq : d.Reachable q)
    (hlen : ((d.inode q).entries d).length ≤ 2) : d.listed q = [] := by
  obtain ⟨e₁, h₁, -⟩ := h.dot q hq
  obtain ⟨e₂, h₂, -⟩ := h.dotdot q hq
  have hmem₁ := List.mem_filter.mp (h₁.symm ▸ List.mem_singleton_self e₁)
  have hmem₂ := List.mem_filter.mp (h₂.symm ▸ List.mem_singleton_self e₂)
  rw [hq.isDirectory.listed, List.filter_eq_nil_iff]
  intro e he hordinary
  obtain ⟨hdot, hdotdot⟩ := DirEntry.ordinary_iff.mp hordinary
  have hnodup : [e₁, e₂, e].Nodup := by
    have h₁₂ : e₁ ≠ e₂ := fun heq => by
      have := DirEntry.named_unique hmem₁.2 (heq ▸ hmem₂.2)
      revert this
      decide
    have h₁e : e₁ ≠ e := fun heq => by simp [heq, hdot] at hmem₁
    have h₂e : e₂ ≠ e := fun heq => by simp [heq, hdotdot] at hmem₂
    simp [h₁₂, h₁e, h₂e]
  have hsub : [e₁, e₂, e] ⊆ (d.inode q).entries d := by
    simp [List.cons_subset, hmem₁.1, hmem₂.1, he]
  have := (List.subperm_of_subset hnodup hsub).length_le
  simp only [List.length_cons, List.length_nil] at this
  omega

/-- Node `q` of the tree is the same in both images. -/
structure SameNode (d d' : Disk) (q : ℕ) : Prop where
  live : d'.Live q ↔ d.Live q
  isDir : d.Live q → (d'.inode q).isDir = (d.inode q).isDir
  entries : d.IsDirectory q → (d'.inode q).entries d' = (d.inode q).entries d

theorem Untouched.sameNode {d d' : Disk} {q : ℕ} (h : Untouched d d' q) : SameNode d d' q :=
  ⟨h.live, fun _ => by rw [h.inode], fun _ => h.entries⟩

namespace SameNode

variable {d d' : Disk} {q : ℕ}

theorem isDirectory (h : SameNode d d' q) : d'.IsDirectory q ↔ d.IsDirectory q := by
  rw [Disk.IsDirectory, Disk.IsDirectory, h.live]
  refine and_congr_right fun hl => ?_
  rw [h.isDir hl]

theorem listed (h : SameNode d d' q) : d'.listed q = d.listed q := by
  by_cases hq : d.IsDirectory q
  · rw [hq.listed, (h.isDirectory.mpr hq).listed, h.entries hq]
  · rw [Disk.listed_of_not_isDirectory hq,
      Disk.listed_of_not_isDirectory (mt h.isDirectory.mp hq)]

theorem children (h : SameNode d d' q) : d'.children q = d.children q := by
  rw [Disk.children, h.listed, Disk.children]

end SameNode

/-- Directory `p` got the entry `e` for inode `n`, which was not in use before. -/
structure Added (d d' : Disk) (p n : ℕ) (e : DirEntry) : Prop where
  parent : d.IsDirectory p
  fresh : ¬ d.Live n
  ne_root : n ≠ 1
  others : ∀ q, q ≠ p → q ≠ n → SameNode d d' q
  isDirectory : d'.IsDirectory p
  entries : ((d'.inode p).entries d').Perm (e :: (d.inode p).entries d)
  ordinary : e.ordinary = true
  names : e.inode.toNat = n
  typed : e.entryType = if (d'.inode n).isDir then 2 else 1
  live : d'.Live n
  dots : (d'.inode n).isDir = true →
    ∃ e₁ e₂ : DirEntry, (d'.inode n).entries d' = [e₁, e₂] ∧
      (e₁.named "." = true ∧ e₁.named ".." = false ∧ e₁.inode.toNat = n) ∧
      (e₂.named "." = false ∧ e₂.named ".." = true ∧ e₂.inode.toNat = p)

namespace Added

variable {d d' : Disk} {p n : ℕ} {e : DirEntry}

theorem ne (h : Added d d' p n e) : p ≠ n := by
  rintro rfl
  exact h.fresh h.parent.1

theorem live_of_live (h : Added d d' p n e) {q : ℕ} (hq : d.Live q) : d'.Live q := by
  by_cases hp : q = p
  · rw [hp]
    exact h.isDirectory.1
  · exact (h.others q hp fun hn => h.fresh (hn ▸ hq)).live.mpr hq

theorem isDir_eq (h : Added d d' p n e) {q : ℕ} (hq : d.Live q) :
    (d'.inode q).isDir = (d.inode q).isDir := by
  by_cases hp : q = p
  · rw [hp, h.isDirectory.2, h.parent.2]
  · exact (h.others q hp fun hn => h.fresh (hn ▸ hq)).isDir hq

theorem listed_self (h : Added d d' p n e) : (d'.listed p).Perm (e :: d.listed p) := by
  rw [h.isDirectory.listed, h.parent.listed]
  have hperm := h.entries.filter DirEntry.ordinary
  rwa [List.filter_cons_of_pos h.ordinary] at hperm

theorem listed_new (h : Added d d' p n e) : d'.listed n = [] := by
  by_cases hn : d'.IsDirectory n
  · obtain ⟨e₁, e₂, hentries, h₁, h₂⟩ := h.dots hn.2
    rw [hn.listed, hentries, List.filter_eq_nil_iff]
    intro x hx
    rw [DirEntry.ordinary_iff]
    rcases List.mem_pair.mp hx with rfl | rfl
    · simp [h₁.1]
    · simp [h₂.2.1]
  · exact Disk.listed_of_not_isDirectory hn

theorem listed_other (h : Added d d' p n e) {q : ℕ} (hq : q ≠ p) : d'.listed q = d.listed q := by
  by_cases hn : q = n
  · rw [hn, h.listed_new, Disk.listed_of_not_isDirectory fun hdir => h.fresh hdir.1]
  · exact (h.others q hq hn).listed

theorem mem_listed (h : Added d d' p n e) {q : ℕ} {x : DirEntry} (hx : x ∈ d'.listed q) :
    x ∈ d.listed q ∨ q = p ∧ x = e := by
  by_cases hq : q = p
  · rw [hq] at hx
    rcases List.mem_cons.mp (h.listed_self.mem_iff.mp hx) with rfl | hx
    · exact Or.inr ⟨hq, rfl⟩
    · exact Or.inl (hq ▸ hx)
  · exact Or.inl (h.listed_other hq ▸ hx)

theorem children_self (h : Added d d' p n e) : (d'.children p).Perm (n :: d.children p) := by
  have hperm := h.listed_self.map fun e => e.inode.toNat
  rwa [List.map_cons, h.names] at hperm

theorem children_other (h : Added d d' p n e) {q : ℕ} (hq : q ≠ p) :
    d'.children q = d.children q := by
  rw [Disk.children, h.listed_other hq, Disk.children]

theorem named (h : Added d d' p n e) (hd : Named d) : Named d' where
  live q x hx := by
    rcases h.mem_listed hx with hold | ⟨-, rfl⟩
    · exact h.live_of_live (hd.live q x hold)
    · rw [h.names]
      exact h.live
  exclusive := by
    have hfresh : ∀ q, n ∉ d.children q := fun q hmem => h.fresh (hd.live_of_mem_children hmem)
    refine hd.exclusive.redistribute (· = p) (fun q hq => h.children_other hq) ?_ ?_ ?_
    · rintro q rfl x hx
      rcases List.mem_cons.mp (h.children_self.mem_iff.mp hx) with rfl | hx
      · exact Or.inr hfresh
      · exact Or.inl ⟨q, rfl, hx⟩
    · rintro q rfl
      exact h.children_self.nodup_iff.mpr (List.nodup_cons.mpr ⟨hfresh q, hd.exclusive.nodup q⟩)
    · rintro q r rfl rfl hne
      exact absurd rfl hne

theorem reachable (h : Added d d' p n e) {q : ℕ} (hq : d'.Reachable q) :
    d.Reachable q ∨ q = n ∧ d'.IsDirectory n := by
  have hdirectory : ∀ r, r ≠ n → d'.IsDirectory r → d.IsDirectory r := by
    intro r hr hdir
    by_cases hp : r = p
    · rw [hp]
      exact h.parent
    · exact (h.others r hp hr).isDirectory.mp hdir
  induction hq with
  | root hroot => exact Or.inl (.root (hdirectory 1 h.ne_root.symm hroot))
  | @child r q _ hmem hdir ih =>
    by_cases hqn : q = n
    · exact Or.inr ⟨hqn, hqn ▸ hdir⟩
    · left
      rcases ih with hr | ⟨rfl, -⟩
      · refine .child hr ?_ (hdirectory q hqn hdir)
        by_cases hrp : r = p
        · rw [hrp] at hmem ⊢
          exact (List.mem_cons.mp (h.children_self.mem_iff.mp hmem)).resolve_left hqn
        · rwa [h.children_other hrp] at hmem
      · rw [Disk.children, h.listed_new] at hmem
        simp at hmem

/-- The dot entries of the directories from before. -/
theorem filter_named (h : Added d d' p n e) {q : ℕ} (hq : d.IsDirectory q) {s : String}
    (hs : e.named s = false) {x : DirEntry}
    (hx : ((d.inode q).entries d).filter (DirEntry.named s) = [x]) :
    ((d'.inode q).entries d').filter (DirEntry.named s) = [x] := by
  by_cases hp : q = p
  · rw [hp] at hx ⊢
    have hperm := h.entries.filter (DirEntry.named s)
    rw [List.filter_cons_of_neg (by simp [hs]), hx] at hperm
    exact List.perm_singleton.mp hperm
  · rw [(h.others q hp fun hn => h.fresh (hn ▸ hq.1)).entries hq, hx]

theorem treeSound (h : Added d d' p n e) (hd : TreeSound d) : TreeSound d' := by
  obtain ⟨hdot, hdotdot⟩ := DirEntry.ordinary_iff.mp h.ordinary
  have hup : ∀ q, d'.Reachable q → ∃ x,
      ((d'.inode q).entries d').filter (DirEntry.named "..") = [x] ∧ (q = 1 → x.inode.toNat = 1) ∧
        ∀ r, q ≠ 1 → d'.Reachable r → q ∈ d'.children r → x.inode.toNat = r := by
    intro q hq
    have hnamed := h.named hd.toNamed
    rcases h.reachable hq with hold | ⟨rfl, hdir⟩
    · obtain ⟨x, hx, hroot, hholder⟩ := hd.dotdot q hold
      refine ⟨x, h.filter_named hold.isDirectory hdotdot hx, hroot, fun r h1 hr hmem => ?_⟩
      have hqn : q ≠ n := fun hqn => h.fresh (hqn ▸ hold.isDirectory.1)
      rcases h.reachable hr with hrold | ⟨rfl, -⟩
      · refine hholder r h1 hrold ?_
        by_cases hrp : r = p
        · rw [hrp] at hmem ⊢
          exact (List.mem_cons.mp (h.children_self.mem_iff.mp hmem)).resolve_left hqn
        · rwa [h.children_other hrp] at hmem
      · rw [Disk.children, h.listed_new] at hmem
        simp at hmem
    · obtain ⟨e₁, e₂, hentries, h₁, h₂⟩ := h.dots hdir.2
      refine ⟨e₂, by simp [hentries, h₁.2.1, h₂.2.1], fun h1 => absurd h1 h.ne_root, ?_⟩
      intro r _ _ hmem
      rw [h₂.2.2]
      refine hnamed.exclusive.owner_unique ?_ hmem
      exact h.children_self.mem_iff.mpr List.mem_cons_self
  refine ⟨h.named hd.toNamed, fun q x hx => ?_, fun q hq => ?_, hup, fun q hq =>
    rooted_of_dotdot hup hq⟩
  · rcases h.mem_listed hx with hold | ⟨-, rfl⟩
    · rw [hd.typed q x hold, h.isDir_eq (hd.live q x hold)]
    · rw [h.typed, h.names]
  · rcases h.reachable hq with hold | ⟨rfl, hdir⟩
    · obtain ⟨x, hx, hself⟩ := hd.dot q hold
      exact ⟨x, h.filter_named hold.isDirectory hdot hx, hself⟩
    · obtain ⟨e₁, e₂, hentries, h₁, h₂⟩ := h.dots hdir.2
      exact ⟨e₁, by simp [hentries, h₁.1, h₂.1], h₁.2.2⟩

end Added

/-- Directory `p` lost its entry `e` for inode `c`, which is not in use any more. Where `p` is `c`
itself nothing is left of the directory. -/
structure Removed (d d' : Disk) (p c : ℕ) (e : DirEntry) : Prop where
  entry : e ∈ d.listed p
  names : e.inode.toNat = c
  gone : ¬ d'.Live c
  others : ∀ q, q ≠ p → q ≠ c → SameNode d d' q
  isDirectory : p ≠ c → d'.IsDirectory p
  entries : p ≠ c → ((d.inode p).entries d).Perm (e :: (d'.inode p).entries d')

namespace Removed

variable {d d' : Disk} {p c : ℕ} {e : DirEntry}

theorem parent (h : Removed d d' p c e) : d.IsDirectory p := (Disk.mem_listed.mp h.entry).1

theorem ordinary (h : Removed d d' p c e) : e.ordinary = true := (Disk.mem_listed.mp h.entry).2.2

theorem mem_children (h : Removed d d' p c e) : c ∈ d.children p :=
  Disk.mem_children.mpr ⟨e, h.entry, h.names⟩

theorem listed_gone (h : Removed d d' p c e) : d'.listed c = [] :=
  Disk.listed_of_not_isDirectory fun hdir => h.gone hdir.1

theorem listed_self (h : Removed d d' p c e) (hpc : p ≠ c) :
    (d.listed p).Perm (e :: d'.listed p) := by
  rw [h.parent.listed, (h.isDirectory hpc).listed]
  have hperm := (h.entries hpc).filter DirEntry.ordinary
  rwa [List.filter_cons_of_pos h.ordinary] at hperm

theorem children_self (h : Removed d d' p c e) (hpc : p ≠ c) :
    (d.children p).Perm (c :: d'.children p) := by
  have hperm := (h.listed_self hpc).map fun e => e.inode.toNat
  rwa [List.map_cons, h.names] at hperm

theorem listed_subset (h : Removed d d' p c e) (q : ℕ) : d'.listed q ⊆ d.listed q := by
  by_cases hqc : q = c
  · rw [hqc, h.listed_gone]
    exact List.nil_subset _
  · by_cases hqp : q = p
    · intro x hx
      rw [hqp] at hx ⊢
      exact (h.listed_self (hqp ▸ hqc)).mem_iff.mpr (List.mem_cons_of_mem _ hx)
    · rw [(h.others q hqp hqc).listed]
      exact fun _ hx => hx

theorem children_subset (h : Removed d d' p c e) (q : ℕ) : d'.children q ⊆ d.children q :=
  List.map_subset _ (h.listed_subset q)

theorem nodup_children (h : Removed d d' p c e) (hd : Named d) (q : ℕ) :
    (d'.children q).Nodup := by
  by_cases hqc : q = c
  · rw [hqc, Disk.children, h.listed_gone]
    exact List.nodup_nil
  · by_cases hqp : q = p
    · have hnodup := hd.exclusive.nodup p
      rw [(h.children_self (hqp ▸ hqc)).nodup_iff] at hnodup
      rw [hqp]
      exact (List.nodup_cons.mp hnodup).2
    · rw [(h.others q hqp hqc).children]
      exact hd.exclusive.nodup q

/-- Nothing names the inode that went out of use. -/
theorem not_mem_children (h : Removed d d' p c e) (hd : Named d) (q : ℕ) : c ∉ d'.children q := by
  intro hmem
  by_cases hqc : q = c
  · rw [hqc, Disk.children, h.listed_gone] at hmem
    simp at hmem
  · have hqp : q = p := hd.exclusive.owner_unique (h.children_subset q hmem) h.mem_children
    have hnodup := hd.exclusive.nodup p
    rw [(h.children_self (hqp ▸ hqc)).nodup_iff] at hnodup
    exact (List.nodup_cons.mp hnodup).1 (hqp ▸ hmem)

theorem ne_of_mem_listed (h : Removed d d' p c e) (hd : Named d) {q : ℕ} {x : DirEntry}
    (hx : x ∈ d'.listed q) : x.inode.toNat ≠ c :=
  fun hc => h.not_mem_children hd q (Disk.mem_children.mpr ⟨x, hx, hc⟩)

theorem named (h : Removed d d' p c e) (hd : Named d) : Named d' where
  live q x hx := by
    have hc := h.ne_of_mem_listed hd hx
    have hlive := hd.live q x (h.listed_subset q hx)
    by_cases hp : x.inode.toNat = p
    · rw [hp] at hc ⊢
      exact (h.isDirectory hc).1
    · exact (h.others _ hp hc).live.mpr hlive
  exclusive := hd.exclusive.mono (h.nodup_children hd) h.children_subset

theorem isDirectory_of (h : Removed d d' p c e) {q : ℕ} (hq : d'.IsDirectory q) :
    d.IsDirectory q := by
  by_cases hp : q = p
  · rw [hp]
    exact h.parent
  · exact (h.others q hp fun hc => h.gone (hc ▸ hq.1)).isDirectory.mp hq

theorem reachable (h : Removed d d' p c e) {q : ℕ} (hq : d'.Reachable q) : d.Reachable q := by
  induction hq with
  | root hroot => exact .root (h.isDirectory_of hroot)
  | child _ hmem hdir ih => exact .child ih (h.children_subset _ hmem) (h.isDirectory_of hdir)

theorem filter_named (h : Removed d d' p c e) {q : ℕ} (hq : d'.IsDirectory q) {s : String}
    (hs : e.named s = false) {x : DirEntry}
    (hx : ((d.inode q).entries d).filter (DirEntry.named s) = [x]) :
    ((d'.inode q).entries d').filter (DirEntry.named s) = [x] := by
  have hqc : q ≠ c := fun hc => h.gone (hc ▸ hq.1)
  by_cases hp : q = p
  · rw [hp] at hx ⊢
    have hperm := (h.entries (hp ▸ hqc)).filter (DirEntry.named s)
    rw [List.filter_cons_of_neg (by simp [hs]), hx] at hperm
    exact List.perm_singleton.mp hperm.symm
  · rw [(h.others q hp hqc).entries (h.isDirectory_of hq), hx]

theorem treeSound (h : Removed d d' p c e) (hd : TreeSound d) : TreeSound d' := by
  obtain ⟨hdot, hdotdot⟩ := DirEntry.ordinary_iff.mp h.ordinary
  have hup : ∀ q, d'.Reachable q → ∃ x,
      ((d'.inode q).entries d').filter (DirEntry.named "..") = [x] ∧ (q = 1 → x.inode.toNat = 1) ∧
        ∀ r, q ≠ 1 → d'.Reachable r → q ∈ d'.children r → x.inode.toNat = r := by
    intro q hq
    obtain ⟨x, hx, hroot, hholder⟩ := hd.dotdot q (h.reachable hq)
    exact ⟨x, h.filter_named hq.isDirectory hdotdot hx, hroot, fun r h1 hr hmem =>
      hholder r h1 (h.reachable hr) (h.children_subset r hmem)⟩
  refine ⟨h.named hd.toNamed, fun q x hx => ?_, fun q hq => ?_, hup, fun q hq =>
    rooted_of_dotdot hup hq⟩
  · have hold := h.listed_subset q hx
    have hc := h.ne_of_mem_listed hd.toNamed hx
    rw [hd.typed q x hold]
    by_cases hp : x.inode.toNat = p
    · rw [hp, h.parent.2, (h.isDirectory (hp ▸ hc)).2]
    · rw [(h.others _ hp hc).isDir (hd.live q x hold)]
  · obtain ⟨x, hx, hself⟩ := hd.dot q (h.reachable hq)
    exact ⟨x, h.filter_named hq.isDirectory hdot hx, hself⟩

end Removed

/-- The entries and the kinds of all inodes in use are kept, and no directory came up. -/
structure SameTree (d d' : Disk) : Prop where
  node : ∀ q, d.Live q → SameNode d d' q
  unused : ∀ q, ¬ d.Live q → ¬ d'.IsDirectory q

namespace SameTree

variable {d d' : Disk}

theorem isDirectory (h : SameTree d d') (q : ℕ) : d'.IsDirectory q ↔ d.IsDirectory q := by
  by_cases hq : d.Live q
  · exact (h.node q hq).isDirectory
  · exact iff_of_false (h.unused q hq) fun hdir => hq hdir.1

theorem listed (h : SameTree d d') (q : ℕ) : d'.listed q = d.listed q := by
  by_cases hq : d.Live q
  · exact (h.node q hq).listed
  · rw [Disk.listed_of_not_isDirectory (h.unused q hq),
      Disk.listed_of_not_isDirectory fun hdir => hq hdir.1]

theorem children (h : SameTree d d') (q : ℕ) : d'.children q = d.children q := by
  rw [Disk.children, h.listed, Disk.children]

theorem named (h : SameTree d d') (hd : Named d) : Named d' where
  live q x hx := by
    have hlive := hd.live q x (h.listed q ▸ hx)
    exact (h.node _ hlive).live.mpr hlive
  exclusive := by
    rw [show d'.children = d.children from funext h.children]
    exact hd.exclusive

theorem reachable (h : SameTree d d') {q : ℕ} (hq : d'.Reachable q) : d.Reachable q := by
  induction hq with
  | root hroot => exact .root ((h.isDirectory 1).mp hroot)
  | child _ hmem hdir ih => exact .child ih (h.children _ ▸ hmem) ((h.isDirectory _).mp hdir)

theorem entries (h : SameTree d d') {q : ℕ} (hq : d.IsDirectory q) :
    (d'.inode q).entries d' = (d.inode q).entries d :=
  (h.node q hq.1).entries hq

theorem treeSound (h : SameTree d d') (hd : TreeSound d) : TreeSound d' := by
  have hup : ∀ q, d'.Reachable q → ∃ x,
      ((d'.inode q).entries d').filter (DirEntry.named "..") = [x] ∧ (q = 1 → x.inode.toNat = 1) ∧
        ∀ r, q ≠ 1 → d'.Reachable r → q ∈ d'.children r → x.inode.toNat = r := by
    intro q hq
    obtain ⟨x, hx, hroot, hholder⟩ := hd.dotdot q (h.reachable hq)
    refine ⟨x, ?_, hroot, fun r h1 hr hmem => hholder r h1 (h.reachable hr) (h.children r ▸ hmem)⟩
    rw [h.entries (h.reachable hq).isDirectory, hx]
  refine ⟨h.named hd.toNamed, fun q x hx => ?_, fun q hq => ?_, hup, fun q hq =>
    rooted_of_dotdot hup hq⟩
  · have hold : x ∈ d.listed q := h.listed q ▸ hx
    have hlive := hd.live q x hold
    rw [hd.typed q x hold, (h.node _ hlive).isDir hlive]
  · obtain ⟨x, hx, hself⟩ := hd.dot q (h.reachable hq)
    refine ⟨x, ?_, hself⟩
    rw [h.entries (h.reachable hq).isDirectory, hx]

end SameTree

/-- What one request can do to the tree. -/
inductive TreeChange (d d' : Disk) : Prop
  | same : SameTree d d' → TreeChange d d'
  | added {p n e} : Added d d' p n e → TreeChange d d'
  | removed {p c e} : Removed d d' p c e → TreeChange d d'

namespace TreeChange

variable {d d' : Disk}

theorem named (h : TreeChange d d') (hd : Named d) : Named d' := by
  cases h with
  | same h => exact h.named hd
  | added h => exact h.named hd
  | removed h => exact h.named hd

theorem treeSound (h : TreeChange d d') (hd : TreeSound d) : TreeSound d' := by
  cases h with
  | same h => exact h.treeSound hd
  | added h => exact h.treeSound hd
  | removed h => exact h.treeSound hd

end TreeChange

end SimpleFS
