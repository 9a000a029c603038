import SimpleFS.Requests.Returns

/-! What `readdir` hands out: the entries from the position that is asked for, until the reply is
full. -/
namespace SimpleFS

/-- The item for the entry `e` at position `k`. -/
def DirEntry.item (e : DirEntry) (k : ℕ) : DirItem where
  ino := e.inode.toNat
  offset := k + 1
  kind := if e.entryType = 2 then .directory else .regularFile
  name := e.nameStr.getD ""

/-- The items for entries of which the first is at position `k`. -/
def items (k : ℕ) (entries : List DirEntry) : List DirItem :=
  (entries.zipIdx k).map fun x => x.1.item x.2

@[simp] theorem items_nil (k : ℕ) : items k [] = [] := rfl

@[simp] theorem items_cons (k : ℕ) (e : DirEntry) (es : List DirEntry) :
    items k (e :: es) = e.item k :: items (k + 1) es := rfl

theorem length_items (k : ℕ) (es : List DirEntry) : (items k es).length = es.length := by
  simp [items]

theorem items_append (k : ℕ) (es es' : List DirEntry) :
    items k (es ++ es') = items k es ++ items (k + es.length) es' := by
  rw [items, List.zipIdx_append, List.map_append]
  rfl

theorem drop_items (j k : ℕ) (es : List DirEntry) :
    (items j es).drop k = items (j + k) (es.drop k) := by
  induction k generalizing j es with
  | zero => rfl
  | succ k ih =>
    cases es with
    | nil => rfl
    | cons e es =>
      rw [items_cons, List.drop_succ_cons, List.drop_succ_cons, ih, Nat.add_right_comm, Nat.add_assoc]

theorem take_items (j m : ℕ) (es : List DirEntry) : (items j es).take m = items j (es.take m) := by
  induction m generalizing j es with
  | zero => rfl
  | succ m ih =>
    cases es with
    | nil => rfl
    | cons e es => rw [items_cons, List.take_succ_cons, List.take_succ_cons, items_cons, ih]

theorem map_name_items (k : ℕ) (es : List DirEntry) :
    (items k es).map DirItem.name = es.map fun e => e.nameStr.getD "" := by
  induction es generalizing k with
  | nil => rfl
  | cons e es ih => rw [items_cons, List.map_cons, List.map_cons, ih (k + 1), DirEntry.item]

theorem mem_items {k : ℕ} {e : DirEntry} {es : List DirEntry} (h : e ∈ es) :
    ∃ j, e.item j ∈ items k es := by
  obtain ⟨pre, post, rfl⟩ := List.append_of_mem h
  exact ⟨k + pre.length, by rw [items_append]; simp⟩

/-- What a reply that holds `held` holds after it was offered the items, up to the first that did not
fit. -/
def fill (full : List DirItem → DirItem → Bool) (held : List DirItem) : List DirItem → List DirItem
  | [] => held
  | item :: rest => if full held item then held else fill full (held ++ [item]) rest

variable {full : List DirItem → DirItem → Bool} {offset : Int64}

theorem fill_eq_take (held offered : List DirItem) :
    ∃ m, fill full held offered = held ++ offered.take m := by
  induction offered generalizing held with
  | nil => exact ⟨0, by simp [fill]⟩
  | cons item rest ih =>
    by_cases hfull : full held item = true
    · exact ⟨0, by simp [fill, hfull]⟩
    · obtain ⟨m, hm⟩ := ih (held ++ [item])
      refine ⟨m + 1, ?_⟩
      rw [fill, if_neg hfull, hm, List.take_succ_cons, List.append_assoc, List.singleton_append]

/-- A reply that is never full takes all. -/
theorem fill_of_never (h : ∀ held item, full held item = false) (held offered : List DirItem) :
    fill full held offered = held ++ offered := by
  induction offered generalizing held with
  | nil => rw [fill, List.append_nil]
  | cons item rest ih =>
    rw [fill, h, if_neg Bool.false_ne_true, ih, List.append_assoc, List.singleton_append]

/-- A reply that holds one item takes one at least. -/
theorem fill_of_one (h : ∀ item, full [] item = false) (item : DirItem) (rest : List DirItem) :
    ∃ m, fill full [] (item :: rest) = item :: rest.take m := by
  rw [fill, h, if_neg Bool.false_ne_true]
  exact fill_eq_take [item] rest

/-- The loop offers the items from the offset on. -/
theorem readdirLoop_eq {slots : List Slot} (hread : ∀ s ∈ slots, s.1.nameStr ≠ none) (k : ℕ)
    (held : List DirItem) :
    Fs.readdirLoop full offset slots k held =
      some (fill full held ((items k (slots.map Prod.fst)).drop (offset.toInt.toNat - k))) := by
  induction slots generalizing k held with
  | nil => simp [Fs.readdirLoop, fill]
  | cons s rest ih =>
    obtain ⟨e, b, off⟩ := s
    have hrest : ∀ s ∈ rest, s.1.nameStr ≠ none := fun s hs => hread s (List.mem_cons_of_mem _ hs)
    obtain ⟨name, hname⟩ := Option.ne_none_iff_exists'.mp (hread _ List.mem_cons_self)
    have hitem : e.item k = ⟨e.inode.toNat, k + 1,
        if e.entryType = 2 then .directory else .regularFile, name⟩ := by
      rw [DirEntry.item, hname, Option.getD_some]
    rw [Fs.readdirLoop, List.map_cons, items_cons]
    by_cases hoff : (k : ℤ) ≥ offset.toInt
    · have hskip : offset.toInt.toNat - k = 0 := by omega
      have hskip' : offset.toInt.toNat - (k + 1) = 0 := by omega
      rw [if_pos hoff, hname, Option.bind_eq_bind, Option.bind_some, hskip, List.drop_zero]
      dsimp only
      rw [← hitem, ih hrest, hskip', List.drop_zero, fill]
      split_ifs <;> rfl
    · have hskip : offset.toInt.toNat - k = offset.toInt.toNat - (k + 1) + 1 := by omega
      rw [if_neg hoff, ih hrest, hskip, List.drop_succ_cons]

/-- Listing a directory offers the reply its entries from the offset on. -/
theorem Fs.readdir_eq {fs : Fs} (hc : Consistent fs) {p : ℕ} (hp : fs.disk.IsDirectory p)
    (hread : fs.disk.Readable p) (offset : Int64) (full : List DirItem → DirItem → Bool) :
    fs.readdir p offset full = some (.directory (fill full []
      ((items 0 ((fs.disk.inode p).entries fs.disk)).drop offset.toInt.toNat)), fs) := by
  have hplaced := hc.placed hp.1
  have hentries : (fs.disk.inode p).entries fs.disk =
      (((fs.disk.inode p).slots fs.disk).filter fun s => !s.1.isEmpty).map Prod.fst := by
    rw [Inode.entries, SlotTable.live, Inode.table, List.filter_map]
    rfl
  have hslots : ∀ s ∈ ((fs.disk.inode p).slots fs.disk).filter fun s => !s.1.isEmpty,
      s.1.nameStr ≠ none := fun s hs => hread s.1 (hentries ▸ List.mem_map_of_mem hs)
  rw [Fs.readdir, Consistent.asU32_of_inodeNo hp.1.1, hc.readInode hp.1.1, Option.bind_eq_bind,
    Option.bind_some, hp.2, hentries]
  simp only [Bool.not_true, Bool.false_eq_true, if_false]
  rw [dirLookup_eq hplaced.sized hplaced.onDisk, Option.bind_eq_bind, Option.bind_some,
    readdirLoop_eq hslots 0 [], Option.bind_eq_bind, Option.bind_some, Nat.sub_zero]

end SimpleFS
