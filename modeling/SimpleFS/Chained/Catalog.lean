import SimpleFS.Chained.Clear
import SimpleFS.Chained.FlatStore
import SimpleFS.Chained.Start
import SimpleFS.Foundation.FiniteMap

/-! The entries of the directory blocks as a map from names to files, and the requests that only
look. -/
namespace SimpleFS.Chained
open FiniteMap Function

instance (e : DirEntry) : Decidable e.Used := inferInstanceAs (Decidable (_ ≠ _))

def DirEntry.file (e : DirEntry) : FlatFile := ⟨e.fileSize, e.mtime⟩

/-- The files of the directory with the blocks `dir`, by block and entry. -/
def placed (d : Disk) (dir : List ℕ) (p : ℕ × ℕ) : Option (List UInt8 × FlatFile) :=
  let e := dirAt (d.block p.1) p.2
  if p.1 ∈ dir ∧ p.2 < dirEntriesPerBlock ∧ e.Used then some (e.name, e.file) else none

/-- The directory has the blocks `dir`, and no chain but its own leads to them. -/
structure Guarded (s : State) (dir : List ℕ) (away : ℕ → Prop) : Prop where
  clear : Clear away s
  chain : Chain (nextOf s.disk) 0 s.sb.rootDirBlock dir
  apart : ∀ b ∈ dir, ¬ away b
  inside : ∀ b ∈ dir, b < 20480
  ended : ∀ b ∈ dir, BlockEnded (s.disk.block b)
  files : ∀ b ∈ dir, ∀ i < dirEntriesPerBlock, (dirAt (s.disk.block b) i).Used →
    away (dirAt (s.disk.block b) i).firstBlock

/-- The directory is out of reach of all other chains, and holds the files `t`. -/
structure Cataloged (s : State) (t : FlatStore) : Prop where
  sized : s.disk.Sized
  shown : ∃ dir away, Guarded s dir away ∧ Indexed (placed s.disk dir) t

section placed

variable {d d' : Disk} {dir : List ℕ} {b i : ℕ}

theorem placed_eq_some {name : List UInt8} {f : FlatFile} :
    placed d dir (b, i) = some (name, f) ↔ b ∈ dir ∧ i < dirEntriesPerBlock ∧
      (dirAt (d.block b) i).Used ∧ (dirAt (d.block b) i).name = name ∧
      (dirAt (d.block b) i).file = f := by
  unfold placed
  simp only [Option.ite_none_right_eq_some, Option.some.injEq, Prod.mk.injEq, and_assoc]

theorem placed_congr (h : ∀ b ∈ dir, d'.block b = d.block b) : placed d' dir = placed d dir := by
  funext p
  unfold placed
  dsimp only
  by_cases hp : p.1 ∈ dir
  · rw [h p.1 hp]
  · rw [if_neg fun hc => hp hc.1, if_neg fun hc => hp hc.1]

/-- One entry is stored. -/
theorem placed_setDirAt (hb : b ∈ dir) (hi : i < dirEntriesPerBlock) (e : DirEntry) :
    placed (d.writeBlock b (setDirAt (d.block b) i e)) dir =
      update (placed d dir) (b, i) (if e.Used then some (e.name, e.file) else none) := by
  funext ⟨c, j⟩
  by_cases hcj : (c, j) = (b, i)
  · obtain ⟨rfl, rfl⟩ := Prod.mk.inj hcj
    rw [update_self]
    unfold placed
    simp only [Disk.block_writeBlock_self, dirAt_setDirAt _ _ hi hi, if_true, hb, hi, true_and]
  · rw [update_of_ne hcj]
    unfold placed
    dsimp only
    by_cases hc : c = b
    · subst hc
      rw [Disk.block_writeBlock_self]
      by_cases hj : j < dirEntriesPerBlock
      · have hji : j ≠ i := fun heq => hcj (by rw [heq])
        rw [dirAt_setDirAt _ _ hi hj, if_neg hji]
      · rw [if_neg fun h => hj h.2.1, if_neg fun h => hj h.2.1]
    · rw [Disk.block_writeBlock_of_ne _ _ hc]

theorem nextOf_setDirAt (hi : i < dirEntriesPerBlock) (e : DirEntry) :
    nextOf (d.writeBlock b (setDirAt (d.block b) i e)) = nextOf d := by
  funext c
  rw [nextOf_writeBlock]
  split_ifs with hc
  · rw [nextBlockNo_setDirAt _ _ hi, hc]
    rfl
  · rfl

/-- A blank block takes no part. -/
theorem placed_append {c : ℕ} (hsame : ∀ b ∈ dir, ∀ i < dirEntriesPerBlock,
      dirAt (d'.block b) i = dirAt (d.block b) i)
    (hblank : d'.block c = Vector.zeros blockSize) (hc : c ∉ dir) :
    placed d' (dir ++ [c]) = placed d dir := by
  funext ⟨b, i⟩
  unfold placed
  dsimp only
  by_cases hi : i < dirEntriesPerBlock
  · by_cases hb : b ∈ dir
    · rw [hsame b hb i hi]
      simp only [List.mem_append_left [c] hb, hb]
    · have hnone : ¬ (b ∈ dir ++ [c] ∧ i < dirEntriesPerBlock ∧ (dirAt (d'.block b) i).Used) := by
        rintro ⟨hmem, -, hused⟩
        obtain rfl : b = c := by simpa [hb] using hmem
        apply hused
        rw [byteAt_dirAt _ _ (by decide), hblank]
        exact Vector.byteAt_zeros _
      rw [if_neg hnone, if_neg fun h => hb h.1]
  · rw [if_neg fun h => hi h.2.1, if_neg fun h => hi h.2.1]

end placed

namespace Guarded

variable {s s' : State} {dir : List ℕ} {away : ℕ → Prop} {b i : ℕ}

theorem of_block_eq (h : Guarded s dir away) {disk : Disk}
    (hblock : ∀ b, disk.block b = s.disk.block b) : Guarded ⟨s.sb, disk⟩ dir away := by
  have hnext : nextOf disk = nextOf s.disk := funext fun b => congrArg nextBlockNo (hblock b)
  exact {
    clear := ⟨h.clear.zero, by rw [hnext]; exact h.clear.next, h.clear.first, h.clear.first_lt⟩
    chain := by rw [hnext]; exact h.chain
    apart := h.apart
    inside := h.inside
    ended := fun b hb => by rw [hblock]; exact h.ended b hb
    files := fun b hb => by rw [hblock]; exact h.files b hb }

/-- What is written elsewhere does not touch the directory. -/
theorem within (h : Guarded s dir away) (hw : Within away s s') : Guarded s' dir away where
  clear := hw.clear
  chain := by
    rw [hw.root]
    exact h.chain.congr fun b hb => congrArg nextBlockNo (hw.block b (h.apart b hb))
  apart := h.apart
  inside := h.inside
  ended b hb := by
    rw [hw.block b (h.apart b hb)]
    exact h.ended b hb
  files b hb := by
    rw [hw.block b (h.apart b hb)]
    exact h.files b hb

/-- An entry is stored, whose file is elsewhere. -/
theorem put (h : Guarded s dir away) (hi : i < dirEntriesPerBlock) {e : DirEntry} (he : e.Ended)
    (hfile : e.Used → away e.firstBlock) :
    Guarded ⟨s.sb, s.disk.writeBlock b (setDirAt (s.disk.block b) i e)⟩ dir away := by
  have hentry : ∀ c, ∀ j < dirEntriesPerBlock,
      dirAt ((s.disk.writeBlock b (setDirAt (s.disk.block b) i e)).block c) j =
        if c = b ∧ j = i then e else dirAt (s.disk.block c) j := by
    intro c j hj
    rw [Disk.block_writeBlock]
    by_cases hc : c = b
    · rw [if_pos hc, dirAt_setDirAt _ _ hi hj, hc]
      simp
    · rw [if_neg hc, if_neg fun h => hc h.1]
  exact {
    clear := ⟨h.clear.zero, by rw [nextOf_setDirAt hi]; exact h.clear.next, h.clear.first,
      h.clear.first_lt⟩
    chain := by rw [nextOf_setDirAt hi]; exact h.chain
    apart := h.apart
    inside := h.inside
    ended := fun c hc j hj => by
      rw [hentry c j hj]
      split_ifs
      · exact he
      · exact h.ended c hc j hj
    files := fun c hc j hj => by
      rw [hentry c j hj]
      split_ifs
      · exact hfile
      · exact h.files c hc j hj }

/-- What `find_entry` finds is a file, in the first place with its name. -/
theorem findEntry (h : Guarded s dir away) {path : Path} {e : DirEntry}
    (hf : Chained.findEntry s path = pure (some (e, b))) :
    b ∈ dir ∧ ∃ i, i < dirEntriesPerBlock ∧ findName (s.disk.block b) path.name = some i ∧
      e = dirAt (s.disk.block b) i ∧ e.name = path.name ∧ e.Used := by
  unfold Chained.findEntry at hf
  split_ifs at hf with hroot
  · rw [Call.pure_inj] at hf
    cases hf
  obtain ⟨hb, -, i, hi, rfl⟩ := findLoop_eq_pure h.chain hf
  obtain ⟨hlt, hname, -⟩ := (findName_eq_some (h.ended b hb)).mp hi
  refine ⟨hb, i, hlt, hi, rfl, hname, DirEntry.used_iff.mpr ?_⟩
  rw [hname]
  exact path.name_ne_nil hroot

end Guarded

/-- Blocks that are shared out are a directory and blocks away from it. -/
theorem Parted.guarded {s : State} {held : Owner → List ℕ} (h : Parted s held none) :
    ∃ away, Guarded s (held .dir) away := by
  obtain ⟨away, haway⟩ : ∃ away : ℕ → Prop, away = fun b => b = 0 ∨ b ∈ held .free ∨
      ∃ c ∈ held .dir, ∃ i < dirEntriesPerBlock, (dirAt (s.disk.block c) i).Used ∧
        b ∈ held (.file c i) := ⟨_, rfl⟩
  have hchain : ∀ {b : ℕ} {o : Owner}, Chain (nextOf s.disk) 0 b (held o) →
      (∀ c ∈ held o, away c) → away b ∧ ∀ c ∈ held o, away (nextOf s.disk c) := by
    intro b o hc hall
    have hhead : ∀ {c l}, Chain (nextOf s.disk) 0 c l → (∀ x ∈ l, away x) → away c := by
      intro c l hc hl
      by_cases h0 : c = 0
      · rw [haway]
        exact Or.inl h0
      · exact hl c (hc.head_mem h0)
    refine ⟨hhead hc hall, fun c hmem => ?_⟩
    obtain ⟨pre, post, heq, hnext⟩ := hc.of_mem hmem
    exact hhead hnext fun x hx => hall x (by rw [heq]; simp [hx])
  have hfree : ∀ b ∈ held .free, away b := fun b hb => by
    rw [haway]
    exact Or.inr (Or.inl hb)
  have hfile : ∀ c ∈ held .dir, ∀ i < dirEntriesPerBlock, (dirAt (s.disk.block c) i).Used →
      ∀ b ∈ held (.file c i), away b := fun c hc i hi hused b hb => by
    rw [haway]
    exact Or.inr (Or.inr ⟨c, hc, i, hi, hused, hb⟩)
  refine ⟨away, ?_⟩
  exact {
    clear := {
      zero := by
        rw [haway]
        exact Or.inl rfl
      next := fun b hb => by
        have hcases := hb
        rw [haway] at hcases
        rcases hcases with rfl | hb | ⟨c, hc, i, hi, hused, hb⟩
        · rwa [h.stopped]
        · exact (hchain h.free hfree).2 b hb
        · exact (hchain (h.file c hc i hi (by simp) hused).1 (hfile c hc i hi hused)).2 b hb
      first := (hchain h.free hfree).1
      first_lt := by
        by_cases h0 : s.sb.firstFreeBlock = 0
        · rw [h0]
          decide
        · have hin := h.inside .free _ (h.free.head_mem h0)
          simp only [maxBlocks, diskSize, blockSize] at hin
          omega }
    chain := h.dir
    apart := fun b hb hb' => by
      rw [haway] at hb'
      rcases hb' with rfl | hb' | ⟨c, hc, i, hi, -, hb'⟩
      · exact h.ne_zero hb rfl
      · exact h.ne_of_mem (o := .dir) (p := .free) (by decide) hb hb' rfl
      · exact h.ne_of_mem (o := .dir) (p := .file c i) (by simp) hb hb' rfl
    inside := fun b hb => (h.inside .dir b hb).2
    ended := h.ended
    files := fun b hb i hi hused =>
      (hchain (h.file b hb i hi (by simp) hused).1 (hfile b hb i hi hused)).1 }

theorem Cataloged.of_sound {s : State} {t : FlatStore} (h : Sound s) (hsized : s.disk.Sized)
    {dir : List ℕ} (hchain : Chain (nextOf s.disk) 0 s.sb.rootDirBlock dir)
    (ht : Indexed (placed s.disk dir) t) : Cataloged s t := by
  obtain ⟨held, hp⟩ := h
  obtain rfl := hchain.unique hp.dir
  obtain ⟨away, hg⟩ := hp.guarded
  exact ⟨hsized, _, away, hg, ht⟩

section loops

variable {s : State} {b : ℕ} {l : List ℕ}

/-- On a chain that ends the search comes to an end, and what it does not find is not there. -/
theorem findLoop_returns (hd : s.disk.Sized) (h : Chain (nextOf s.disk) 0 b l)
    (hl : ∀ x ∈ l, x < 20480) (name : List UInt8) :
    ∃ r, s.findLoop name b = pure r ∧
      (r = none → ∀ c ∈ l, findName (s.disk.block c) name = none) := by
  induction h with
  | nil =>
    rw [State.findLoop, if_pos rfl]
    exact ⟨none, rfl, fun _ c hc => absurd hc List.not_mem_nil⟩
  | @cons a l hne _ ih =>
    rw [List.forall_mem_cons] at hl
    rw [State.findLoop, if_neg hne, readBlock_of_sized hd hl.1, pure_bind]
    cases hfind : findName (s.disk.block a) name with
    | some i => exact ⟨_, rfl, fun hr => absurd hr (Option.some_ne_none _)⟩
    | none =>
      obtain ⟨r, hr, hnone⟩ := ih hl.2
      refine ⟨r, hr, fun hrn c hc => ?_⟩
      rcases List.mem_cons.mp hc with rfl | hc
      · exact hfind
      · exact hnone hrn c hc

/-- A place in one of the blocks is found. -/
theorem slotLoop_found (hd : s.disk.Sized) (h : Chain (nextOf s.disk) 0 b l)
    (hl : ∀ x ∈ l, x < 20480) (hslot : ∃ c ∈ l, findFree (s.disk.block c) ≠ none) :
    ∃ c ∈ l, ∃ i, findFree (s.disk.block c) = some i ∧
      s.slotLoop b = pure (some (c, s.disk.block c, i), s) := by
  induction h with
  | nil =>
    obtain ⟨c, hc, -⟩ := hslot
    cases hc
  | @cons a l hne hnext ih =>
    rw [List.forall_mem_cons] at hl
    rw [State.slotLoop, if_neg hne, readBlock_of_sized hd hl.1, pure_bind]
    cases hfree : findFree (s.disk.block a) with
    | some i => exact ⟨a, List.mem_cons_self, i, hfree, rfl⟩
    | none =>
      obtain ⟨c, hc, hfound⟩ := hslot
      have hrest : c ∈ l := by
        rcases List.mem_cons.mp hc with rfl | hc
        · exact absurd hfree hfound
        · exact hc
      have hmore : nextBlockNo (s.disk.block a) ≠ 0 := by
        intro hz
        have hz' : nextOf s.disk a = 0 := hz
        rw [hz'] at hnext
        rw [hnext.eq_nil] at hrest
        cases hrest
      obtain ⟨c, hc, i, hi, hloop⟩ := ih hl.2 ⟨c, hrest, hfound⟩
      dsimp only
      rw [if_neg hmore]
      exact ⟨c, List.mem_cons_of_mem _ hc, i, hi, hloop⟩

/-- The entries of the blocks `l` that are in use. -/
def usedPlaces (d : Disk) (l : List ℕ) : List (ℕ × ℕ) :=
  l.flatMap fun b => ((List.range dirEntriesPerBlock).filter fun i =>
    (dirAt (d.block b) i).Used).map fun i => (b, i)

theorem mem_usedPlaces {d : Disk} {i : ℕ} : (b, i) ∈ usedPlaces d l ↔
    b ∈ l ∧ i < dirEntriesPerBlock ∧ (dirAt (d.block b) i).Used := by
  simp [usedPlaces]

theorem nodup_usedPlaces {d : Disk} (h : l.Nodup) : (usedPlaces d l).Nodup := by
  apply List.nodup_flatMap.mpr
  constructor
  · intro b _
    refine ((List.nodup_range).filter _).map fun i j hij => ?_
    exact (Prod.mk.inj hij).2
  · refine h.imp fun {b c} hne => ?_
    intro p hp hq
    obtain ⟨i, -, rfl⟩ := List.mem_map.mp hp
    obtain ⟨j, -, heq⟩ := List.mem_map.mp hq
    exact hne (Prod.mk.inj heq).1.symm

theorem listLoop_eq (hd : s.disk.Sized) (h : Chain (nextOf s.disk) 0 b l)
    (hl : ∀ x ∈ l, x < 20480)
    (hend : ∀ c ∈ l, BlockEnded (s.disk.block c)) :
    s.listLoop b = pure ((usedPlaces s.disk l).map fun p => (dirAt (s.disk.block p.1) p.2).name) := by
  induction h with
  | nil =>
    rw [State.listLoop, if_pos rfl]
    rfl
  | @cons a l hne _ ih =>
    rw [List.forall_mem_cons] at hl hend
    have hrest := ih hl.2 hend.2
    have hused : (List.range dirEntriesPerBlock).filter
        (fun i => (s.disk.block a).byteAt (i * dirEntrySize) ≠ 0) =
        (List.range dirEntriesPerBlock).filter fun i => (dirAt (s.disk.block a) i).Used := by
      apply List.filter_congr
      intro i _
      rw [decide_eq_decide, DirEntry.Used, byteAt_dirAt _ _ (by decide), Nat.add_zero]
    have hnames : ((List.range dirEntriesPerBlock).filter fun i =>
        (dirAt (s.disk.block a) i).Used).map (fun i => cString (s.disk.block a) (i * dirEntrySize)) =
        ((List.range dirEntriesPerBlock).filter fun i =>
          (dirAt (s.disk.block a) i).Used).map fun i => (dirAt (s.disk.block a) i).name := by
      apply List.map_congr_left
      intro i hi
      exact cString_dirAt (hend.1 i (List.mem_range.mp (List.mem_filter.mp hi).1))
    have hturn : s.listLoop a = (do
        let rest ← s.listLoop (nextOf s.disk a)
        return (((List.range dirEntriesPerBlock).filter fun i =>
          (s.disk.block a).byteAt (i * dirEntrySize) ≠ 0).map
            fun i => cString (s.disk.block a) (i * dirEntrySize)) ++ rest) := by
      rw [State.listLoop, if_neg hne, readBlock_of_sized hd hl.1, pure_bind]
      rfl
    rw [hturn, hrest, pure_bind, hused, hnames]
    simp only [usedPlaces, List.flatMap_cons, List.map_append, List.map_map, comp_def]

end loops

namespace Cataloged

variable {s : State} {t : FlatStore} {path : Path}

theorem find_some (h : Cataloged s t) {e : DirEntry} {b : ℕ}
    (hf : findEntry s path = pure (some (e, b))) : t path.name = some e.file := by
  obtain ⟨dir, away, hg, hplaced⟩ := h.shown
  obtain ⟨hb, i, hi, -, he, hname, hused⟩ := hg.findEntry hf
  apply hplaced.sound (b, i)
  rw [placed_eq_some, ← he]
  exact ⟨hb, hi, hused, hname, rfl⟩

/-- `find_entry` finds the files, and nothing else. -/
theorem findEntry (h : Cataloged s t) (path : Path) :
    (Chained.findEntry s path = pure none ∧ t path.name = none) ∨
      ∃ e b, Chained.findEntry s path = pure (some (e, b)) ∧ t path.name = some e.file := by
  obtain ⟨dir, away, hg, hplaced⟩ := h.shown
  have hreturns : ∃ r, Chained.findEntry s path = pure r ∧
      (r = none → t path.name = none) := by
    by_cases hroot : path.bytes = [0x2F]
    · refine ⟨none, by rw [Chained.findEntry, if_pos hroot], fun _ => ?_⟩
      have hnil : path.name = [] := by
        rw [Path.name, hroot]
        rfl
      rw [hnil, hplaced.eq_none_iff]
      rintro ⟨b, i⟩ f hi
      obtain ⟨-, -, hused, hname, -⟩ := placed_eq_some.mp hi
      exact DirEntry.used_iff.mp hused hname
    · obtain ⟨r, hr, hnone⟩ := findLoop_returns h.sized hg.chain hg.inside path.name
      refine ⟨r, by rw [Chained.findEntry, if_neg hroot, hr], fun hrn => ?_⟩
      rw [hplaced.eq_none_iff]
      rintro ⟨b, i⟩ f hi
      obtain ⟨hb, hlt, hused, hname, -⟩ := placed_eq_some.mp hi
      have hfind := hnone hrn b hb
      unfold findName at hfind
      have hno := List.find?_eq_none.mp hfind i (List.mem_range.mpr hlt)
      exact hno (decide_eq_true ((cString_dirAt (hg.ended b hb i hlt)).trans hname))
  obtain ⟨r, hr, hnone⟩ := hreturns
  cases r with
  | none => exact Or.inl ⟨hr, hnone rfl⟩
  | some f => exact Or.inr ⟨f.1, f.2, hr, h.find_some hr⟩

theorem getattr (h : Cataloged s t) (path : Path) :
    simplefsGetattr s path = pure (t.stat path) := by
  unfold simplefsGetattr FlatStore.stat
  split_ifs
  · rfl
  · rcases h.findEntry path with ⟨hfind, hnone⟩ | ⟨e, b, hfind, hsome⟩
    · rw [hfind, pure_bind, hnone]
    · rw [hfind, pure_bind, hsome]
      rfl

theorem opened (h : Cataloged s t) (path : Path) (flags : UInt32) :
    simplefsOpen s path flags = pure (t.opened path flags) := by
  unfold simplefsOpen FlatStore.opened
  rcases h.findEntry path with ⟨hfind, hnone⟩ | ⟨e, b, hfind, hsome⟩
  · rw [hfind, pure_bind, hnone]
  · rw [hfind, pure_bind, hsome]
    dsimp only
    split_ifs <;> rfl

/-- The listing has every file once. -/
theorem readdir (h : Cataloged s t) : ∃ names : List (List UInt8), names.Nodup ∧
    (∀ name, name ∈ names ↔ t name ≠ none) ∧
    ∀ path : Path, simplefsReaddir s path = pure (if path.bytes = [0x2F] then
      .ok ([0x2E] :: [0x2E, 0x2E] :: names) else .error (-ENOENT)) := by
  obtain ⟨dir, away, hg, hplaced⟩ := h.shown
  have hlist := listLoop_eq h.sized hg.chain hg.inside hg.ended
  refine ⟨(usedPlaces s.disk dir).map fun p => (dirAt (s.disk.block p.1) p.2).name, ?_,
    fun name => ?_, fun path => ?_⟩
  · apply (nodup_usedPlaces hg.chain.nodup).map_on
    rintro ⟨b, i⟩ hi ⟨c, j⟩ hj hname
    obtain ⟨hb, hi, hused⟩ := mem_usedPlaces.mp hi
    obtain ⟨hc, hj, hused'⟩ := mem_usedPlaces.mp hj
    exact hplaced.unique (b, i) (c, j) _ _ _ (placed_eq_some.mpr ⟨hb, hi, hused, rfl, rfl⟩)
      (placed_eq_some.mpr ⟨hc, hj, hused', hname.symm, rfl⟩)
  · constructor
    · intro hmem
      obtain ⟨⟨b, i⟩, hi, rfl⟩ := List.mem_map.mp hmem
      obtain ⟨hb, hi, hused⟩ := mem_usedPlaces.mp hi
      rw [hplaced.sound (b, i) _ _ (placed_eq_some.mpr ⟨hb, hi, hused, rfl, rfl⟩)]
      exact Option.some_ne_none _
    · intro hne
      obtain ⟨f, hf⟩ := Option.ne_none_iff_exists'.mp hne
      obtain ⟨⟨b, i⟩, hi⟩ := hplaced.total name f hf
      obtain ⟨hb, hi, hused, hname, -⟩ := placed_eq_some.mp hi
      exact List.mem_map.mpr ⟨(b, i), mem_usedPlaces.mpr ⟨hb, hi, hused⟩, hname⟩
  · unfold simplefsReaddir
    by_cases hroot : path.bytes = [0x2F]
    · rw [if_neg (not_not.mpr hroot), hlist, pure_bind, if_pos hroot]
    · rw [if_pos hroot, if_neg hroot]

end Cataloged

end SimpleFS.Chained
