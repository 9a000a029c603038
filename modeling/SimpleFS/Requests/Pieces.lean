import SimpleFS.Foundation.Cursor
import SimpleFS.Requests.Naming
import SimpleFS.Requests.Readdir
import SimpleFS.Requests.Space

/-! Listing a directory with several calls of `readdir`, each going on where the last one stopped,
while requests change the directory. -/
namespace SimpleFS
open Runs Cursor

/-- Entries of one directory differ in their names or in the inodes that they name. -/
def DirEntry.key (e : DirEntry) : Option String × UInt32 := (e.nameStr, e.inode)

/-- The item shows the entry, at whatever position. -/
def DirEntry.shownBy (e : DirEntry) (item : DirItem) : Bool :=
  decide (item = { e.item 0 with offset := item.offset })

/-- A listing that is being made: the file system, the offset with which it goes on, the entries
that have been in the directory since it began, what was delivered, and whether it has ended. -/
structure Session where
  fs : Fs
  cursor : ℕ
  stay : List DirEntry
  delivered : List DirItem
  ended : Bool

/-- The entries of directory `p`. -/
def Fs.entries (fs : Fs) (p : ℕ) : List DirEntry := (fs.disk.inode p).entries fs.disk

/-- A listing of directory `p` begins at offset 0. -/
def Session.begin (fs : Fs) (p : ℕ) : Session := ⟨fs, 0, fs.entries p, [], false⟩

/-- A call of `readdir` with a buffer, or a request. -/
inductive ListEvent
  | piece (full : List DirItem → DirItem → Bool)
  | update (e : Event)

/-- The requests that change the entries of directory `p`. -/
def Request.Updates (p : ℕ) : Request → Prop
  | .create q _ | .mkdir q _ | .rmdir q _ | .unlink q _ => q = p
  | _ => False

theorem Request.Updates.eq_of_naming {e : Event} {p q : ℕ} {name : ByteArray} {v : Option ℕ}
    (h : e.request.Updates p) (hn : e.naming = some (q, name, v)) : q = p := by
  unfold Event.naming at hn
  split at hn
  · rename_i hrequest _
    cases hn
    rwa [hrequest] at h
  · rename_i hrequest _
    cases hn
    rwa [hrequest] at h
  · rename_i hrequest _
    cases hn
    rwa [hrequest] at h
  · rename_i hrequest _
    cases hn
    rwa [hrequest] at h
  · cases hn

/-- A step of a listing: it goes on with the offset of the last item that was delivered, with a
buffer that holds one item at least, and ends when it gets nothing; or a request changes the
directory. -/
inductive Session.Steps (p : ℕ) : Session → ListEvent → Session → Prop
  | piece {s : Session} {full : List DirItem → DirItem → Bool} {items : List DirItem} :
      s.ended = false → (∀ item, full [] item = false) →
      s.fs.readdir p (.ofNat s.cursor) full = some (.directory items, s.fs) →
      Session.Steps p s (.piece full)
        { s with
          cursor := (items.getLast?.map DirItem.offset).getD s.cursor
          delivered := s.delivered ++ items
          ended := items.isEmpty }
  | update {s : Session} {e : Event} {fs' : Fs} :
      s.ended = false → e.request.Updates p → s.fs.Steps e fs' →
      Session.Steps p s (.update e)
        { s with fs := fs', stay := s.stay.filter fun x => decide (x ∈ fs'.entries p) }

/-- Once the listing has ended, every entry that was there all the time was delivered once. -/
def Session.Complete (s : Session) : Prop :=
  s.ended = true → ∀ e ∈ s.stay, s.delivered.countP e.shownBy = 1

/-- No entry that was there all the time moves across the cursor: what is added does not come before
the cursor, or does not push such an entry over it, and what is removed does not come before it, or
does not pull such an entry over it. -/
def Session.Still (p : ℕ) (s : Session) : ListEvent → Prop
  | .piece _ => True
  | .update e =>
    match e.naming with
    | none => True
    | some (_, _, some _) =>
      s.cursor ≤ SlotTable.front DirEntry.isEmpty ((s.fs.disk.inode p).table s.fs.disk) ∨
        ∀ x, (s.fs.entries p)[s.cursor - 1]? = some x → x ∉ s.stay
    | some (_, name, none) =>
      s.cursor ≤ (s.fs.entries p).findIdx (DirEntry.named (Fs.nameOr "" name)) ∨
        ∀ x, (s.fs.entries p)[s.cursor]? = some x → x ∉ s.stay

structure Session.StepsStill (p : ℕ) (s : Session) (i : ListEvent) (s' : Session) : Prop where
  steps : s.Steps p i s'
  still : s.Still p i

/-- All directories are listings. -/
structure Listed (fs : Fs) : Prop extends Healthy fs where
  listing : ∀ p, fs.disk.IsDirectory p → fs.disk.Listing DirEntry.key p

theorem Listed.readable {fs : Fs} {p : ℕ} (h : Listed fs) (hp : fs.disk.IsDirectory p) :
    ∀ e ∈ fs.entries p, e.nameStr ≠ none :=
  (h.listing p hp).readable

theorem Listed.distinct {fs : Fs} {p : ℕ} (h : Listed fs) (hp : fs.disk.IsDirectory p) :
    ((fs.entries p).map DirEntry.key).Nodup :=
  (h.listing p hp).distinct

/-- An entry for a number that is not in use is like none in the directory. -/
theorem Listed.key_not_mem {fs fs' : Fs} {p n : ℕ} {e : DirEntry} (h : Listed fs)
    (ha : Added fs.disk fs'.disk p n e) : e.key ∉ (fs.entries p).map DirEntry.key := by
  intro hmem
  obtain ⟨x, hx, heq⟩ := List.mem_map.mp hmem
  have hnames : x.nameStr = e.nameStr := congrArg Prod.fst heq
  have hordinary : x.ordinary = true := by
    rw [← ha.ordinary, DirEntry.ordinary, DirEntry.ordinary, DirEntry.named, DirEntry.named,
      DirEntry.named, DirEntry.named, hnames]
  have hlive := h.tree.live p x (Disk.mem_listed.mpr ⟨ha.parent, hx, hordinary⟩)
  rw [show x.inode = e.inode from congrArg Prod.snd heq, ha.names] at hlive
  exact ha.fresh hlive

theorem Listed.step {fs fs' : Fs} (h : Listed fs) {e : Event} (hs : fs.Steps e fs') :
    Listed fs' := by
  refine ⟨hs.healthy h.toHealthy, fun q hq => ?_⟩
  have hchange := hs.nameChange h.toHealthy
  generalize e.naming = naming at hchange
  cases hchange with
  | kept hs => exact hs.listing h.listing hq
  | given _ _ ha _ =>
    refine ha.listing h.listing (fun x y heq => congrArg Prod.fst heq) ?_ (h.key_not_mem ha) hq
    rw [DirEntry.nameStr_new]
    simp
  | taken _ _ hr _ _ => exact hr.listing h.listing hq

theorem Formatted.listed {d : Disk} {now : Int64} {taken : ℕ → Bool} {fs : Fs}
    (h : Formatted d now taken fs) (hb : d.Blank) : Listed fs := by
  refine ⟨h.healthy hb, fun p hp => ?_⟩
  rw [(h.live_iff hb).mp hp.1]
  exact .dots (fun _ _ heq => congrArg Prod.fst heq) h.entries_root (DirEntry.named_new_dot 1).1
    (DirEntry.named_new_dotdot 1).2

theorem DirEntry.shownBy_item (e x : DirEntry) (j : ℕ) :
    e.shownBy (x.item j) = decide (x.item 0 = e.item 0) := by
  unfold shownBy item
  simp only [DirItem.mk.injEq, true_and]

/-- The deliveries of an entry are those entries that look like it. -/
theorem countP_items (e : DirEntry) (k : ℕ) (es : List DirEntry) :
    (items k es).countP e.shownBy = es.countP fun x => decide (x.item 0 = e.item 0) := by
  induction es generalizing k with
  | nil => rfl
  | cons x es ih => rw [items_cons, List.countP_cons, List.countP_cons, ih, DirEntry.shownBy_item]

/-- Entries that look alike are at the same position. -/
theorem item_iff {l : List DirEntry} (hread : ∀ e ∈ l, e.nameStr ≠ none)
    (hdistinct : (l.map DirEntry.key).Nodup) {i j : ℕ} {e x : DirEntry} (he : l[i]? = some e)
    (hx : l[j]? = some x) : decide (x.item 0 = e.item 0) = true ↔ j = i := by
  rw [decide_eq_true_iff]
  constructor
  · intro heq
    obtain ⟨s, hs⟩ := Option.ne_none_iff_exists'.mp (hread e (List.mem_of_getElem? he))
    obtain ⟨t, ht⟩ := Option.ne_none_iff_exists'.mp (hread x (List.mem_of_getElem? hx))
    have hname : t = s := by
      have hname := congrArg DirItem.name heq
      rwa [DirEntry.item, DirEntry.item, hs, ht, Option.getD_some, Option.getD_some] at hname
    have hino : x.inode = e.inode := UInt32.toNat_inj.mp (congrArg DirItem.ino heq)
    have hkey : x.key = e.key := by rw [DirEntry.key, DirEntry.key, hs, ht, hname, hino]
    have hkeys : (l.map DirEntry.key)[j]? = (l.map DirEntry.key)[i]? := by
      rw [List.getElem?_map, List.getElem?_map, hx, he, Option.map_some, Option.map_some, hkey]
    refine (List.getElem?_inj ?_ hdistinct).mp hkeys
    rw [List.length_map]
    exact (List.getElem?_eq_some_iff.mp hx).1
  · rintro rfl
    rw [Option.some.inj (hx.symm.trans he)]

/-- What every step keeps: of the entries that were there all the time, those before the cursor were
delivered once, and those from there on not at all. -/
structure Session.Keeps (p : ℕ) (s : Session) : Prop extends Listed s.fs where
  isDirectory : s.fs.disk.IsDirectory p
  bound : s.cursor ≤ 15 * 65535
  present : ∀ e ∈ s.stay, e ∈ s.fs.entries p
  covered : Covered (s.fs.entries p) s.cursor (· ∈ s.stay) fun e => s.delivered.countP e.shownBy
  ended : s.ended = true → (s.fs.entries p).length ≤ s.cursor

theorem Inode.length_entries_le (d : Disk) (dir : Inode) :
    (dir.entries d).length ≤ 15 * dir.blockCount.toNat := by
  have hle := List.length_filter_le (fun e => !e.isEmpty) (dir.table d)
  rw [Inode.length_table] at hle
  have hblocks : (dir.blocks d).length ≤ dir.blockCount.toNat :=
    (List.length_filterMap_le _ _).trans_eq List.length_range
  exact hle.trans (Nat.mul_le_mul_left 15 hblocks)

/-- The offset of the last item is the position after it. -/
theorem getLast_items (k : ℕ) (es : List DirEntry) :
    ((items k es).getLast?.map DirItem.offset).getD k = k + es.length := by
  rcases es.eq_nil_or_concat with rfl | ⟨es, e, rfl⟩
  · rfl
  · rw [List.concat_eq_append, items_append, List.getLast?_append]
    simp [DirEntry.item, Nat.add_assoc]

namespace Session.Keeps

variable {p : ℕ} {s : Session}

theorem start {fs : Fs} (h : Listed fs) (hp : fs.disk.IsDirectory p) :
    (Session.begin fs p).Keeps p := by
  refine ⟨h, hp, ?_, ?_, ?_, ?_⟩
  · exact Nat.zero_le _
  · intro e he
    simpa [Session.begin] using he
  · intro i e _ _
    simp [Session.begin]
  · intro hended
    simp [Session.begin] at hended

/-- A piece: the entries from the cursor on, as many as fit, and at least one if there is one. -/
theorem piece (h : s.Keeps p) {full : List DirItem → DirItem → Bool} {items : List DirItem}
    (hone : ∀ item, full [] item = false)
    (hreaddir : s.fs.readdir p (.ofNat s.cursor) full = some (.directory items, s.fs)) :
    Session.Keeps p { s with
      cursor := (items.getLast?.map DirItem.offset).getD s.cursor
      delivered := s.delivered ++ items
      ended := items.isEmpty } := by
  have hlist := h.listing p h.isDirectory
  have hoffset : (Int64.ofNat s.cursor).toInt.toNat = s.cursor := by
    have := h.bound
    rw [Int64.toInt_ofNat_of_lt (by omega)]
    rfl
  obtain ⟨m, hitems, hsome⟩ : ∃ m, items =
      SimpleFS.items s.cursor (((s.fs.entries p).drop s.cursor).take m) ∧
        (items = [] → (s.fs.entries p).length ≤ s.cursor) := by
    rw [Fs.readdir_eq h.toConsistent h.isDirectory hlist.readable, hoffset, drop_items,
      Nat.zero_add] at hreaddir
    injection hreaddir with hreply
    have hfill := (Reply.directory.inj (Prod.mk.inj hreply).1).symm
    obtain ⟨m, hm⟩ := @fill_eq_take full [] (SimpleFS.items s.cursor
      ((s.fs.entries p).drop s.cursor))
    refine ⟨m, ?_, fun hnil => ?_⟩
    · rw [hfill, ← take_items]
      exact hm
    · by_contra hlt
      cases hrest : (s.fs.entries p).drop s.cursor with
      | nil => exact hlt (List.drop_eq_nil_iff.mp hrest)
      | cons e es =>
        obtain ⟨m', hm'⟩ := fill_of_one hone (e.item s.cursor) (SimpleFS.items (s.cursor + 1) es)
        rw [Fs.entries] at hrest
        rw [hrest, items_cons, hm'] at hfill
        rw [hnil] at hfill
        cases hfill
  subst hitems
  have hlen : (s.fs.entries p).length ≤ 15 * 65535 :=
    (Inode.length_entries_le _ _).trans (Nat.mul_le_mul_left 15
      (Nat.le_of_lt_succ (s.fs.disk.inode p).blockCount.toNat_lt))
  have hcount : (((s.fs.entries p).drop s.cursor).take m).length =
      min m ((s.fs.entries p).length - s.cursor) := by
    rw [List.length_take, List.length_drop]
  rw [getLast_items, hcount]
  refine ⟨h.toListed, h.isDirectory, ?_, h.present, ?_, fun hended => ?_⟩
  · have := h.bound
    show s.cursor + _ ≤ _
    omega
  · show Covered (s.fs.entries p) (s.cursor + _) (· ∈ s.stay) fun e =>
      (s.delivered ++ SimpleFS.items s.cursor _).countP e.shownBy
    simp only [List.countP_append, countP_items]
    refine h.covered.read (Nat.le_add_right _ _) fun i e he _ => ?_
    have hi := (List.getElem?_eq_some_iff.mp he).1
    have hone := fun j x hx => @item_iff _ (h.readable h.isDirectory) (h.distinct h.isDirectory)
      i j e x he hx
    rw [countP_slice hone hi]
    split_ifs <;> omega
  · have := hsome (List.isEmpty_iff.mp hended)
    show (s.fs.entries p).length ≤ s.cursor + _
    omega

/-- A request in the directory: what is left of the entries keeps its side of the cursor. -/
theorem update (h : s.Keeps p) {e : Event} {fs' : Fs} (hended : s.ended = false)
    (hup : e.request.Updates p) (hs : s.fs.Steps e fs') (hstill : s.Still p (.update e)) :
    Session.Keeps p { s with
      fs := fs'
      stay := s.stay.filter fun x => decide (x ∈ fs'.entries p) } := by
  suffices hkeep : fs'.disk.IsDirectory p ∧ Covered (fs'.entries p) s.cursor (· ∈ s.stay)
      fun e => s.delivered.countP e.shownBy by
    refine ⟨h.toListed.step hs, hkeep.1, h.bound, fun x hx => ?_,
      hkeep.2.mono fun x hx => List.mem_of_mem_filter hx, fun htrue => ?_⟩
    · exact of_decide_eq_true (List.mem_filter.mp hx).2
    · rw [hended] at htrue
      cases htrue
  have hchange := hs.nameChange h.toHealthy
  cases hn : e.naming with
  | none =>
    rw [hn] at hchange
    cases hchange with
    | kept hsame =>
      refine ⟨(hsame.isDirectory p).mpr h.isDirectory, ?_⟩
      rw [Fs.entries, hsame.entries h.isDirectory]
      exact h.covered
  | some naming =>
    rw [hn] at hchange
    cases hchange with
    | @given q n isDir name _ _ ha htable =>
      obtain rfl : q = p := hup.eq_of_naming hn
      simp only [Session.Still, hn] at hstill
      have hnew : DirEntry.new n (Fs.nameOr "unknown" name) isDir ∉ s.stay := fun hmem =>
        h.key_not_mem ha (List.mem_map_of_mem (h.present _ hmem))
      have hempty : (DirEntry.new n (Fs.nameOr "unknown" name) isDir).isEmpty = false :=
        (Inode.mem_entries.mp (ha.entries.mem_iff.mpr List.mem_cons_self)).2
      refine ⟨ha.isDirectory, ?_⟩
      rw [Fs.entries, Inode.entries, htable, SlotTable.live_insert hempty (by simp)]
      exact h.covered.insert (SlotTable.front_le_length_live _) hnew hstill
    | @taken q x name _ _ hr hlen htable =>
      obtain rfl : q = p := hup.eq_of_naming hn
      simp only [Session.Still, hn] at hstill
      have hne : q ≠ x.inode.toNat := by
        intro heq
        have := (h.listing q h.isDirectory).length_of_ordinary (Disk.mem_listed.mp hr.entry).2.1
          hr.ordinary
        have := hlen (heq ▸ h.isDirectory)
        rw [← heq] at this
        omega
      refine ⟨hr.isDirectory hne, ?_⟩
      rw [Fs.entries, Inode.entries, htable hne, SlotTable.live_clear DirEntry.isEmpty_cleared]
      exact h.covered.eraseP hstill

/-- Every step in which the entries keep their sides. -/
theorem step (h : s.Keeps p) {i : ListEvent} {s' : Session} (hs : s.StepsStill p i s') :
    s'.Keeps p := by
  obtain ⟨hsteps, hstill⟩ := hs
  cases hsteps with
  | piece _ hone hreaddir => exact h.piece hone hreaddir
  | update hended hup hreq => exact h.update hended hup hreq hstill

theorem complete (h : s.Keeps p) : s.Complete := fun hended e he =>
  h.covered.all (h.ended hended) (h.present e he) he

end Session.Keeps

/-- A listing in pieces is complete in every run in which no entry moves across its cursor. -/
theorem listing_complete {now : Int64} {start fs : Fs} {p : ℕ} {s : Session}
    (hmount : mount [] now = some start) (hrun : Reach Fs.Steps start fs)
    (hp : fs.disk.IsDirectory p) (hlist : Reach (Session.StepsStill p) (.begin fs p) s) :
    s.Complete := by
  obtain ⟨fs₀, hfs₀, hformat⟩ := mount_nil now
  obtain rfl : start = fs₀ := Option.some.inj (hmount.symm.trans hfs₀)
  have hlisted : Listed fs := hrun.invariant_state (hformat.listed Disk.blank_empty)
    fun _ _ _ hl hstep => hl.step hstep
  have hkeeps : s.Keeps p := hlist.invariant_state (.start hlisted hp)
    fun _ _ _ hk hstep => hk.step hstep
  exact hkeeps.complete

/-- The next piece of a listing. -/
theorem Session.steps_piece {fs : Fs} {p k k' : ℕ} {stay : List DirEntry}
    {delivered items : List DirItem} (h : Listed fs) (hp : fs.disk.IsDirectory p)
    {full : List DirItem → DirItem → Bool} (hone : ∀ item, full [] item = false) (hk : k < 2 ^ 63)
    (hitems : fill full [] ((SimpleFS.items 0 (fs.entries p)).drop k) = items)
    (hk' : (items.getLast?.map DirItem.offset).getD k = k') :
    Session.Steps p ⟨fs, k, stay, delivered, false⟩ (.piece full)
      ⟨fs, k', stay, delivered ++ items, items.isEmpty⟩ := by
  subst hitems hk'
  refine .piece rfl hone ?_
  rw [Fs.readdir_eq h.toConsistent hp (h.readable hp), Int64.toInt_ofNat_of_lt hk]
  rfl

/-- A directory that does not change is listed with one large piece. -/
theorem Session.whole {fs : Fs} {p : ℕ} (h : Listed fs) (hp : fs.disk.IsDirectory p)
    (hsome : fs.entries p ≠ []) :
    ∃ cursor delivered, Reach (Session.StepsStill p) (.begin fs p)
      ⟨fs, cursor, fs.entries p, delivered, true⟩ := by
  obtain ⟨es, hes⟩ : ∃ es, fs.entries p = es := ⟨_, rfl⟩
  have hlen : es.length < 2 ^ 63 := by
    have hle : es.length ≤ 15 * (fs.disk.inode p).blockCount.toNat :=
      hes ▸ Inode.length_entries_le fs.disk (fs.disk.inode p)
    have := (fs.disk.inode p).blockCount.toNat_lt
    omega
  have hall : fill (fun _ _ => false) [] ((items 0 (fs.entries p)).drop 0) = items 0 es := by
    rw [fill_of_never fun _ _ => rfl, hes, List.drop_zero, List.nil_append]
  have hnone : fill (fun _ _ => false) [] ((items 0 (fs.entries p)).drop es.length) = [] := by
    rw [fill_of_never fun _ _ => rfl, hes, List.nil_append, List.drop_eq_nil_iff, length_items]
  have hcursor : ((items 0 es).getLast?.map DirItem.offset).getD 0 = es.length := by
    rw [getLast_items, Nat.zero_add]
  have hempty : (items 0 es).isEmpty = false := by
    rw [List.isEmpty_eq_false_iff, ← List.length_pos_iff, length_items, List.length_pos_iff, ← hes]
    exact hsome
  have hfirst : Session.Steps p (.begin fs p) (.piece fun _ _ => false)
      ⟨fs, es.length, fs.entries p, [] ++ items 0 es, (items 0 es).isEmpty⟩ :=
    Session.steps_piece h hp (fun _ => rfl) (by omega) hall hcursor
  rw [hempty] at hfirst
  have hlast : Session.Steps p ⟨fs, es.length, fs.entries p, [] ++ items 0 es, false⟩
      (.piece fun _ _ => false)
      ⟨fs, es.length, fs.entries p, [] ++ items 0 es ++ [], true⟩ :=
    Session.steps_piece h hp (fun _ => rfl) hlen hnone rfl
  exact ⟨_, _, .step _ (.step _ .start ⟨hfirst, trivial⟩) ⟨hlast, trivial⟩⟩

/-- The root of a new image is listed with its two entries. -/
theorem listing_complete_root : ∃ (fs : Fs) (s : Session), mount [] 0 = some fs ∧
    Reach (Session.StepsStill 1) (.begin fs 1) s ∧ s.ended = true ∧
      s.delivered.countP (DirEntry.shownBy (.new 1 "." true)) = 1 := by
  obtain ⟨fs, hmount, hformat⟩ := mount_nil 0
  have hroot := hformat.isDirectory_root
  have hentries : fs.entries 1 = [.new 1 "." true, .new 1 ".." true] := hformat.entries_root
  have hdot : DirEntry.new 1 "." true ∈ fs.entries 1 := by
    rw [hentries]
    exact List.mem_cons_self
  obtain ⟨cursor, delivered, hlist⟩ := Session.whole (hformat.listed Disk.blank_empty) hroot
    (List.ne_nil_of_mem hdot)
  have hcomplete := listing_complete hmount .start hroot hlist
  unfold Session.Complete at hcomplete
  dsimp only at hcomplete
  exact ⟨fs, _, hmount, hlist, by dsimp only, hcomplete rfl _ hdot⟩

/-- A file more in a directory of which the first unused slot is known. -/
theorem Listed.create_next {fs : Fs} (h : Listed fs) {p : ℕ} (hp : fs.disk.IsDirectory p)
    {pre post : List DirEntry}
    (htable : (fs.disk.inode p).table fs.disk = pre ++ .blank :: post)
    (hpre : ∀ x ∈ pre, x.isEmpty = false) {s : String} (hs : EntryName s.toByteArray)
    (hlacks : (fs.disk.inode p).Lacks fs.disk s)
    (hnumber : ∃ n, 1000 ≤ n ∧ n ≤ 2000 ∧ ¬ fs.disk.Live n) :
    ∃ e fs' n, fs.Steps e fs' ∧ fs'.disk.IsDirectory p ∧ fs'.disk.Live n ∧
      (fs'.disk.inode p).table fs'.disk = pre ++ .new n s false :: post ∧
      ∀ m, fs'.disk.Live m → m = n ∨ fs.disk.Live m := by
  have hname : Fs.nameOr "unknown" s.toByteArray = s := by
    rw [Fs.nameOr, fromUTF8?_toByteArray]
    rfl
  have hslot : ∃ x ∈ (fs.disk.inode p).table fs.disk, x.isEmpty = true :=
    ⟨.blank, by rw [htable]; simp, DirEntry.isEmpty_blank⟩
  have hsafe := stepSafe_create hp.1.1 hslot s.toByteArray
  obtain ⟨n, fs', grown, hcreate, hlo, hhi, -, hb⟩ := create_created s.toByteArray h.toConsistent
    h.synced hsafe hp.1 (h.mapped p hp.1) (h.readable hp) (by rwa [hname]) hslot hnumber fun _ => 0
  rw [hname] at hb
  refine ⟨⟨.create p s.toByteArray, fun _ => 0, _⟩, fs', n, ⟨⟨hp, hs⟩, hsafe, hcreate⟩,
    ⟨⟨hp.1.1, ?_⟩, ?_⟩, ⟨hb.inodeNo, ?_⟩, ?_, fun m hm => ?_⟩
  · rw [hb.nlink]
    exact hp.1.2
  · rw [Inode.isDir, hb.mode]
    exact hp.2
  · rw [hb.inode]
    exact nlink_createdInode _ _
  · rw [hb.table, htable, SlotTable.insert_of_split hpre DirEntry.isEmpty_blank]
  · by_cases hmn : m = n
    · exact Or.inl hmn
    · by_cases hmp : m = p
      · exact Or.inr (hmp ▸ hp.1)
      · exact Or.inr ((hb.footprint.live_iff (by simp [hmn, hmp])).mp hm)

theorem lacks_iff_names {l : List DirEntry} {names : List String} {s : String}
    (hl : l.map DirEntry.nameStr = names.map some) (hs : s ∉ names) :
    ∀ e ∈ l, e.nameStr ≠ none ∧ e.named s = false := by
  intro e he
  have hmem : e.nameStr ∈ names.map some := hl ▸ List.mem_map_of_mem he
  obtain ⟨t, ht, heq⟩ := List.mem_map.mp hmem
  refine ⟨by simp [← heq], ?_⟩
  rw [DirEntry.named, ← heq, beq_eq_false_iff_ne]
  rintro hst
  exact hs (Option.some.inj hst ▸ ht)

/-- There is a state with two files in the root, `a` and `b`. -/
theorem exists_pair : ∃ (start fs : Fs) (m n : ℕ), mount [] 0 = some start ∧
    Reach Fs.Steps start fs ∧ Listed fs ∧ fs.disk.IsDirectory 1 ∧
    fs.entries 1 = [.new 1 "." true, .new 1 ".." true, .new m "a" false, .new n "b" false] := by
  obtain ⟨start, hmount, hformat⟩ := mount_nil 0
  have hnameB : EntryName "b".toByteArray := by
    constructor <;> decide
  have hunused : ∀ n, n ≠ 1 → ¬ start.disk.Live n := fun n hne hl =>
    hne ((hformat.live_iff Disk.blank_empty).mp hl)
  have hl := hformat.listed Disk.blank_empty
  have hpre : ∀ x ∈ [DirEntry.new 1 "." true, .new 1 ".." true], x.isEmpty = false := by
    intro x hx
    rcases List.mem_pair.mp hx with rfl | rfl
    · exact DirEntry.isEmpty_new _ _ (by decide)
    · exact DirEntry.isEmpty_new _ _ (by decide)
  have htable : (start.disk.inode 1).table start.disk =
      [DirEntry.new 1 "." true, .new 1 ".." true] ++ .blank :: List.replicate 12 .blank :=
    hformat.table_root
  obtain ⟨e₁, fs₁, m, hstep₁, hroot₁, hm, htable₁, hlive₁⟩ := hl.create_next
    hformat.isDirectory_root htable hpre entryName_a
    (hformat.lacks_root (by decide) (by decide)) ⟨1000, by decide, by decide, hunused _ (by decide)⟩
  have hl₁ := hl.step hstep₁
  have htable₁' : (fs₁.disk.inode 1).table fs₁.disk =
      [DirEntry.new 1 "." true, .new 1 ".." true, .new m "a" false] ++
        .blank :: List.replicate 11 .blank := htable₁
  have hpre₁ : ∀ x ∈ [DirEntry.new 1 "." true, .new 1 ".." true, .new m "a" false],
      x.isEmpty = false := by
    intro x hx
    rcases List.mem_cons.mp hx with rfl | hx
    · exact DirEntry.isEmpty_new _ _ (by decide)
    rcases List.mem_pair.mp hx with rfl | rfl
    · exact DirEntry.isEmpty_new _ _ (by decide)
    · exact DirEntry.isEmpty_new _ _ (by decide)
  have hentries₁ := Inode.entries_of_table (k := 12) hpre₁ htable₁'
  obtain ⟨e₂, fs₂, n, hstep₂, hroot₂, hn, htable₂, -⟩ := hl₁.create_next hroot₁ htable₁' hpre₁
    hnameB (by
      rw [Inode.Lacks, hentries₁]
      refine @lacks_iff_names _ [".", "..", "a"] _ ?_ (by decide)
      simp only [List.map_cons, List.map_nil, List.cons.injEq, and_true]
      exact ⟨DirEntry.nameStr_new_of_le _ _ (by decide), DirEntry.nameStr_new_of_le _ _ (by decide),
        DirEntry.nameStr_new_of_le _ _ (by decide)⟩) (by
      by_cases hm' : m = 1000
      · refine ⟨1001, by decide, by decide, fun hl => ?_⟩
        rcases hlive₁ 1001 hl with heq | hl
        · omega
        · exact hunused 1001 (by decide) hl
      · refine ⟨1000, by decide, by decide, fun hl => ?_⟩
        rcases hlive₁ 1000 hl with heq | hl
        · omega
        · exact hunused 1000 (by decide) hl)
  have hpre₂ : ∀ x ∈ [DirEntry.new 1 "." true, .new 1 ".." true, .new m "a" false] ++
      [.new n "b" false], x.isEmpty = false := by
    intro x hx
    rcases List.mem_append.mp hx with hx | hx
    · exact hpre₁ x hx
    · rw [List.mem_singleton.mp hx]
      exact DirEntry.isEmpty_new _ _ (by decide)
  exact ⟨start, fs₂, m, n, hmount, .step _ (.step _ .start hstep₁) hstep₂, hl₁.step hstep₂, hroot₂,
    Inode.entries_of_table (k := 11) hpre₂ htable₂⟩

/-- In that state the first of the files can be deleted. -/
theorem unlink_pair {fs : Fs} {m n : ℕ} (hl : Listed fs) (hroot : fs.disk.IsDirectory 1)
    (hentries : fs.entries 1 =
      [.new 1 "." true, .new 1 ".." true, .new m "a" false, .new n "b" false]) :
    ∃ e fs', e.request.Updates 1 ∧ fs.Steps e fs' ∧ fs'.disk.IsDirectory 1 ∧
      fs'.entries 1 = [.new 1 "." true, .new 1 ".." true, .new n "b" false] := by
  have hname : Fs.nameOr "" "a".toByteArray = "a" := by
    rw [Fs.nameOr, fromUTF8?_toByteArray]
    rfl
  have hplaced := hl.placed hroot.1
  have hnames : ∀ x ∈ fs.entries 1, x.named "a" = true → x = .new m "a" false := by
    intro x hx hxa
    rw [hentries] at hx
    simp only [List.mem_cons, List.not_mem_nil, or_false] at hx
    rcases hx with rfl | rfl | rfl | rfl
    · rw [DirEntry.named_new_of_le _ _ (by decide)] at hxa
      exact absurd hxa (by decide)
    · rw [DirEntry.named_new_of_le _ _ (by decide)] at hxa
      exact absurd hxa (by decide)
    · rfl
    · rw [DirEntry.named_new_of_le _ _ (by decide)] at hxa
      exact absurd hxa (by decide)
  have ha : DirEntry.new m "a" false ∈ fs.entries 1 := by
    rw [hentries]
    simp
  have hnamed : (DirEntry.new m "a" false).named "a" = true := by
    rw [DirEntry.named_new_of_le _ _ (by decide)]
    exact decide_eq_true rfl
  obtain ⟨slot, hfind⟩ := dirFind_of_mem_entries hplaced.sized hplaced.onDisk (hl.readable hroot) ha
    hnamed hnames
  have hlives := hl.tree.live_of_nameOr hroot entryName_a
  obtain ⟨reply, fs', hunlink⟩ := unlink_some hl.toConsistent hroot.1 (hname ▸ hfind) hlives
    fun _ => 0
  have hstep : fs.Steps ⟨.unlink 1 "a".toByteArray, fun _ => 0, reply⟩ fs' :=
    ⟨⟨hroot, entryName_a⟩, fun _ _ _ => Nat.zero_le _, hunlink⟩
  refine ⟨⟨.unlink 1 "a".toByteArray, fun _ => 0, reply⟩, fs', rfl, hstep, ?_⟩
  have houtcome := unlink_outcome hl.toConsistent hroot.1 hroot.2 hlives hunlink
  rw [hname] at houtcome
  cases houtcome with
  | missing hlacks =>
    have hnot := (hlacks _ ha).2
    rw [hnamed] at hnot
    cases hnot
  | @isDir e hn hdir =>
    have htyped := hl.tree.typed 1 e (hn.mem_listed hroot ⟨by decide, by decide, by decide⟩)
    rw [hdir, hnames e hn.mem_entries hn.named] at htyped
    simp at htyped
  | @gone _ e hn hfile hg =>
    have hne : 1 ≠ e.inode.toNat := fun heq => by
      rw [← heq, hroot.2] at hfile
      cases hfile
    refine ⟨(hg.removed hl.toConsistent hroot hn
      ⟨by decide, by decide, by decide⟩).isDirectory hne, ?_⟩
    rw [Fs.entries, Inode.entries, hg.table hne, SlotTable.live_clear DirEntry.isEmpty_cleared,
      ← Inode.entries, ← Fs.entries, hentries]
    simp only [List.eraseP_cons, List.eraseP_nil]
    rw [DirEntry.named_new_of_le _ _ (by decide), DirEntry.named_new_of_le _ _ (by decide),
      DirEntry.named_new_of_le _ _ (by decide)]
    rfl

/-- A file is removed that comes before the cursor of a listing: the one behind is left out. -/
theorem not_listing_complete : ∃ (start fs : Fs) (s : Session), mount [] 0 = some start ∧
    Reach Fs.Steps start fs ∧ fs.disk.IsDirectory 1 ∧
    Reach (Session.Steps 1) (.begin fs 1) s ∧ ¬ s.Complete := by
  obtain ⟨start, fs, m, n, hmount, hrun, hl, hroot, hentries⟩ := exists_pair
  obtain ⟨e, fs', hup, hstep, hroot', hleft⟩ := unlink_pair hl hroot hentries
  obtain ⟨shown, hshown⟩ : ∃ shown, items 0 [.new 1 "." true, .new 1 ".." true,
      .new m "a" false] = shown := ⟨_, rfl⟩
  have hthree : fill (fun held _ => decide (3 ≤ held.length)) []
      ((items 0 (fs.entries 1)).drop 0) = shown := by
    rw [hentries, ← hshown]
    rfl
  have hcursor : (shown.getLast?.map DirItem.offset).getD 0 = 3 := by
    rw [← hshown]
    rfl
  have hsome : shown.isEmpty = false := by
    rw [← hshown]
    rfl
  have hnone : fill (fun _ _ => false) [] ((items 0 (fs'.entries 1)).drop 3) = [] := by
    rw [hleft]
    rfl
  have hfirst : Session.Steps 1 (.begin fs 1) (.piece fun held _ => decide (3 ≤ held.length))
      ⟨fs, 3, fs.entries 1, [] ++ shown, shown.isEmpty⟩ :=
    Session.steps_piece hl hroot (fun _ => rfl) (by decide) hthree hcursor
  obtain ⟨es, hes⟩ : ∃ es, fs.entries 1 = es := ⟨_, rfl⟩
  obtain ⟨es', hes'⟩ : ∃ es', fs'.entries 1 = es' := ⟨_, rfl⟩
  rw [hsome, hes] at hfirst
  have hmid : Session.Steps 1 ⟨fs, 3, es, [] ++ shown, false⟩ (.update e)
      ⟨fs', 3, es.filter fun x => decide (x ∈ fs'.entries 1), [] ++ shown, false⟩ :=
    .update rfl hup hstep
  rw [hes'] at hmid
  have hlast : Session.Steps 1 ⟨fs', 3, es.filter fun x => decide (x ∈ es'), [] ++ shown, false⟩
      (.piece fun _ _ => false)
      ⟨fs', 3, es.filter fun x => decide (x ∈ es'), [] ++ shown ++ [], true⟩ :=
    Session.steps_piece (hl.step hstep) hroot' (fun _ => rfl) (by decide) hnone rfl
  refine ⟨start, fs, _, hmount, hrun, hroot, .step _ (.step _ (.step _ .start hfirst) hmid) hlast,
    fun hcomplete => ?_⟩
  unfold Session.Complete at hcomplete
  dsimp only at hcomplete
  have hb : DirEntry.new n "b" false ∈ es.filter fun x => decide (x ∈ es') := by
    rw [← hes, ← hes', hentries, hleft]
    simp
  have hone := hcomplete rfl _ hb
  rw [List.nil_append, List.append_nil, ← hshown, countP_items] at hone
  have hzero : ∀ x ∈ [DirEntry.new 1 "." true, .new 1 ".." true, .new m "a" false],
      ¬ decide (x.item 0 = DirEntry.item (.new n "b" false) 0) = true := by
    intro x hx heq
    have hname : x.nameStr.getD "" = (DirEntry.new n "b" false).nameStr.getD "" :=
      congrArg DirItem.name (of_decide_eq_true heq)
    rw [DirEntry.nameStr_new_of_le n false (by decide)] at hname
    simp only [List.mem_cons, List.not_mem_nil, or_false] at hx
    rcases hx with rfl | rfl | rfl
    · rw [DirEntry.nameStr_new_of_le _ _ (by decide)] at hname
      exact absurd hname (by decide)
    · rw [DirEntry.nameStr_new_of_le _ _ (by decide)] at hname
      exact absurd hname (by decide)
    · rw [DirEntry.nameStr_new_of_le _ _ (by decide)] at hname
      exact absurd hname (by decide)
  rw [List.countP_eq_zero.mpr hzero] at hone
  cases hone

end SimpleFS
