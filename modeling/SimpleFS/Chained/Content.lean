import SimpleFS.Chained.Ending
import SimpleFS.Foundation.Overlay

/-! The bytes of a file as its chain of blocks gives them, and what the loops of read and write do
to them. -/
namespace SimpleFS.Chained
open Overlay

/-- The byte at position `p` of the file with the blocks `l`. -/
def fileByte (d : Disk) (l : List ℕ) (p : ℕ) : UInt8 :=
  (d.block (l.getD (p / pageSize) 0)).byteAt (p % pageSize)

section fileByte

variable (d : Disk) (a : ℕ) (l : List ℕ) {p : ℕ}

theorem fileByte_cons_of_lt (h : p < pageSize) :
    fileByte d (a :: l) p = (d.block a).byteAt p := by
  rw [fileByte, Nat.div_eq_of_lt h, Nat.mod_eq_of_lt h]
  rfl

theorem fileByte_cons_add (p : ℕ) : fileByte d (a :: l) (pageSize + p) = fileByte d l p := by
  rw [fileByte, Nat.add_div_left _ (by decide), Nat.add_mod_left]
  rfl

theorem fileByte_drop (n p : ℕ) : fileByte d (l.drop n) p = fileByte d l (n * pageSize + p) := by
  unfold fileByte
  rw [List.getD_eq_getElem?_getD, List.getD_eq_getElem?_getD, List.getElem?_drop,
    Nat.add_comm (n * pageSize), Nat.add_mul_div_right _ _ (by decide), Nat.add_mul_mod_self_right,
    Nat.add_comm n]

theorem fileByte_append (l' : List ℕ) (h : p < l.length * pageSize) :
    fileByte d (l ++ l') p = fileByte d l p := by
  have hlt : p / pageSize < l.length := Nat.div_lt_of_lt_mul (by rwa [Nat.mul_comm])
  unfold fileByte
  rw [List.getD_eq_getElem?_getD, List.getD_eq_getElem?_getD, List.getElem?_append_left hlt]

/-- The bytes at a position are those of one of the blocks. -/
theorem fileByte_congr {d' : Disk} {l : List ℕ} (hp : p < l.length * pageSize)
    (h : ∀ x ∈ l, ∀ k < pageSize, (d'.block x).byteAt k = (d.block x).byteAt k) :
    fileByte d' l p = fileByte d l p := by
  have hlt : p / pageSize < l.length := Nat.div_lt_of_lt_mul (by rwa [Nat.mul_comm])
  unfold fileByte
  rw [List.getD_eq_getElem?_getD, List.getElem?_eq_getElem hlt, Option.getD_some]
  exact h _ (List.getElem_mem hlt) _ (Nat.mod_lt _ (by decide))

end fileByte

section loops

variable {s : State} {b : ℕ} {l : List ℕ}

theorem skipLoop_eq (hd : s.disk.Sized) (h : Chain (nextOf s.disk) 0 b l) (hl : ∀ x ∈ l, x < 20480)
    {n : ℕ} (hn : n ≤ l.length) :
    ∃ c, skipLoop s.disk n b = pure c ∧ Chain (nextOf s.disk) 0 c (l.drop n) := by
  induction n generalizing b l with
  | zero => exact ⟨b, rfl, h⟩
  | succ n ih =>
    cases h with
    | nil => exact absurd hn (Nat.not_succ_le_zero n)
    | cons hne h =>
      rw [List.forall_mem_cons] at hl
      obtain ⟨c, hc, hchain⟩ := ih h hl.2 (Nat.le_of_succ_le_succ hn)
      refine ⟨c, ?_, hchain⟩
      unfold skipLoop
      rw [readBlock_of_sized hd hl.1, pure_bind]
      exact hc

/-- A read gets the bytes of the blocks, as far as the chain goes. -/
theorem readLoop_eq (hd : s.disk.Sized) (h : Chain (nextOf s.disk) 0 b l) (hl : ∀ x ∈ l, x < 20480)
    {off : ℕ} (hoff : off < pageSize) (n : ℕ) :
    s.readLoop b off n = pure (window (fileByte s.disk l) off (min n (l.length * pageSize - off))) := by
  induction l generalizing b off n with
  | nil =>
    cases h
    unfold State.readLoop
    rw [if_neg fun hc => hc.2 rfl, List.length_nil, Nat.zero_mul, Nat.zero_sub, Nat.min_zero]
    rfl
  | cons a l ih =>
    cases h with
    | cons hne h =>
      rw [List.forall_mem_cons] at hl
      unfold State.readLoop
      split_ifs with hc
      · obtain ⟨m, hm⟩ : ∃ m, min (pageSize - off) n = m := ⟨_, rfl⟩
        have hfirst : (List.range m).map (fun k => (s.disk.block a).byteAt (off + k)) =
            window (fileByte s.disk (a :: l)) off m := by
          refine List.map_congr_left fun k hk => ?_
          rw [List.mem_range] at hk
          exact (fileByte_cons_of_lt _ _ _ (by omega)).symm
        have hrest : window (fileByte s.disk l) 0 (min (n - m) (l.length * pageSize - 0)) =
            window (fileByte s.disk (a :: l)) (off + m)
              (min (n - m) (l.length * pageSize - 0)) := by
          by_cases hfull : m = pageSize - off
          · have hoffm : off + m = pageSize := by omega
            rw [hoffm]
            refine List.map_congr_left fun k _ => ?_
            rw [Nat.zero_add, fileByte_cons_add]
          · have hz : n - m = 0 := by omega
            simp only [hz, Nat.zero_min, window_zero]
        have hlen : min n ((a :: l).length * pageSize - off) =
            m + min (n - m) (l.length * pageSize - 0) := by
          rw [List.length_cons, Nat.add_mul, Nat.one_mul]
          omega
        have hnext := ih h hl.2 (show 0 < pageSize by decide) (n - m)
        unfold nextOf at hnext
        simp only [readBlock_of_sized hd hl.1, pure_bind, hm, hnext]
        rw [hfirst, hrest, ← window_append, ← hlen]
      · have hn : n = 0 := by
          by_contra hpos
          exact hc ⟨Nat.pos_of_ne_zero hpos, hne⟩
        rw [hn, Nat.zero_min]
        rfl

/-- One turn of the writing loop, seen from the file: the data that fits in the first block. -/
private theorem fileByte_writeFirst {d : Disk} {a off : ℕ} {l : List ℕ} {data : List UInt8}
    {d' : Disk} (ha : a ∉ l) (hd' : d.writeBlock a ((d.block a).copyAt off
      (min (pageSize - off) data.length) fun k => data.getD k 0) = d') (hoff : off < pageSize) {p : ℕ}
    (hp : p < (a :: l).length * pageSize) :
    fileByte d' (a :: l) p =
      patch (fileByte d (a :: l)) off (data.take (min (pageSize - off) data.length)) p := by
  obtain ⟨m, hm⟩ : ∃ m, min (pageSize - off) data.length = m := ⟨_, rfl⟩
  rw [hm] at hd' ⊢
  unfold patch
  rcases lt_or_ge p pageSize with hlow | hhigh
  · have hlt : p < blockSize := lt_of_lt_of_le hlow (by decide)
    rw [fileByte_cons_of_lt _ _ _ hlow, fileByte_cons_of_lt _ _ _ hlow, ← hd',
      Disk.block_writeBlock_self, Vector.byteAt_copyAt, List.getElem?_take]
    by_cases hin : off ≤ p
    · rw [if_pos hin]
      split_ifs with h1 h2 h2
      · rw [List.getD_eq_getElem?_getD, List.getElem?_eq_getElem (by omega), Option.getD_some,
          Option.getD_some]
      · omega
      · omega
      · rfl
    · rw [if_neg hin, if_neg fun hc => hin hc.1]
  · obtain ⟨q, rfl⟩ := Nat.exists_eq_add_of_le hhigh
    rw [List.length_cons, Nat.add_mul, Nat.one_mul] at hp
    have hsame : fileByte d' l q = fileByte d l q := by
      refine fileByte_congr d (by omega) fun x hx k _ => ?_
      have hne : x ≠ a := fun heq => ha (heq ▸ hx)
      rw [← hd', Disk.block_writeBlock_of_ne _ _ hne]
    rw [fileByte_cons_add, fileByte_cons_add, hsame, List.getElem?_eq_none (by
      rw [List.length_take]; omega), Option.getD_none, if_pos (by omega)]

/-- A write that stays within the chain returns, and patches the bytes of the file. -/
theorem writeLoop_eq (hd : s.disk.Sized) (h : Chain (nextOf s.disk) 0 b l)
    (hl : ∀ x ∈ l, x < 20480) {off : ℕ} (hoff : off < pageSize) {data : List UInt8}
    (hlen : off + data.length ≤ l.length * pageSize ∨ data = []) :
    ∃ s', s.writeLoop b off data = pure s' ∧ s'.disk.Sized ∧
      ∀ p < l.length * pageSize,
        fileByte s'.disk l p = patch (fileByte s.disk l) off data p := by
  induction l generalizing s b off data with
  | nil =>
    have hnil : data = [] := by
      rcases hlen with hlen | hnil
      · rw [List.length_nil, Nat.zero_mul] at hlen
        exact List.length_eq_zero_iff.mp (by omega)
      · exact hnil
    refine ⟨s, ?_, hd, fun p hp => absurd hp (by simp)⟩
    unfold State.writeLoop
    rw [if_neg fun hc => absurd hc.1 (by rw [hnil]; decide)]
  | cons a l ih =>
    cases h with
    | cons hne h =>
      rw [List.forall_mem_cons] at hl
      unfold State.writeLoop
      split_ifs with hc
      · obtain ⟨m, hm⟩ : ∃ m, min (pageSize - off) data.length = m := ⟨_, rfl⟩
        have hsame := nextOf_writeData s.disk a hoff.le data
        obtain ⟨disk, hdisk⟩ : ∃ disk, s.disk.writeBlock a ((s.disk.block a).copyAt off
          (min (pageSize - off) data.length) fun k => data.getD k 0) = disk := ⟨_, rfl⟩
        have hsized : disk.Sized := by
          rw [← hdisk]
          exact hd.writeBlock hl.1 _
        have ha : a ∉ l := (List.nodup_cons.mp (Chain.cons hne h).nodup).1
        have hfirst := fun p => fileByte_writeFirst (p := p) ha hdisk hoff
        rw [hdisk] at hsame
        have hchain : Chain (nextOf disk) 0 (nextBlockNo (s.disk.block a)) l :=
          h.congr fun c _ => congrFun hsame c
        have hrest : 0 + (data.drop m).length ≤ l.length * pageSize ∨ data.drop m = [] := by
          rw [List.length_drop]
          rcases hlen with hlen | hnil
          · rw [List.length_cons, Nat.add_mul, Nat.one_mul] at hlen
            by_cases hfull : m = data.length
            · exact Or.inr (List.drop_eq_nil_of_le (by omega))
            · exact Or.inl (by omega)
          · exact Or.inr (by rw [hnil, List.drop_nil])
        obtain ⟨s', hw, hs', hbytes⟩ := ih (s := ⟨s.sb, disk⟩) hsized hchain hl.2
          (show 0 < pageSize by decide) hrest
        have hout := (writeLoop_eq_pure (s := ⟨s.sb, disk⟩) hchain (Nat.zero_le _) hw).2.2
        rw [hm] at hdisk hfirst
        refine ⟨s', ?_, hs', fun p hp => ?_⟩
        · simp only [readBlock_of_sized hd hl.1, pure_bind, hm, hdisk]
          exact hw
        have hsplit : patch (fileByte s.disk (a :: l)) off data p =
            patch (fileByte disk (a :: l)) (off + m) (data.drop m) p := by
          have htake : (data.take m).length = m := List.length_take_of_le (by omega)
          have happ := patch_append (fileByte s.disk (a :: l)) off (data.take m) (data.drop m)
          rw [List.take_append_drop, htake] at happ
          rw [happ]
          exact patch_congr (hfirst p hp).symm
        -- Either the data ends in this block, or the next one starts a fresh page.
        have hend : data.drop m = [] ∨ off + m = pageSize := by
          by_cases hfull : m = data.length
          · exact Or.inl (List.drop_eq_nil_of_le (by omega))
          · exact Or.inr (by omega)
        rw [hsplit]
        rcases lt_or_ge p pageSize with hlow | hhigh
        · rw [fileByte_cons_of_lt _ _ _ hlow, hout a ha, ← fileByte_cons_of_lt disk a l hlow]
          rcases hend with hnil | hpage
          · rw [hnil, patch_nil]
          · rw [patch_of_outside _ (Or.inl (by omega))]
        · obtain ⟨q, rfl⟩ := Nat.exists_eq_add_of_le hhigh
          rw [List.length_cons, Nat.add_mul, Nat.one_mul] at hp
          rw [fileByte_cons_add, hbytes q (by omega)]
          rcases hend with hnil | hpage
          · rw [hnil, patch_nil, patch_nil, fileByte_cons_add]
          · have hadd := patch_add (fileByte disk (a :: l)) pageSize 0 (data.drop m) q
            rw [Nat.add_zero] at hadd
            rw [hpage, hadd]
            exact patch_congr (fileByte_cons_add disk a l q).symm
      · have hnil : data = [] := by
          by_contra hpos
          exact hc ⟨List.length_pos_iff.mpr hpos, hne⟩
        exact ⟨s, rfl, hd, fun p _ => by rw [hnil, patch_nil]⟩

/-- The data of a write goes to its range of the file and nowhere else. -/
theorem writeData_eq (hd : s.disk.Sized) (h : Chain (nextOf s.disk) 0 b l)
    (hl : ∀ x ∈ l, x < 20480) {offset : ℕ} {data : List UInt8}
    (hlen : offset + data.length ≤ l.length * pageSize) :
    ∃ c s', skipLoop s.disk (offset / pageSize) b = pure c ∧
      s.writeLoop c (offset % pageSize) data = pure s' ∧ s'.sb = s.sb ∧ s'.disk.Sized ∧
      nextOf s'.disk = nextOf s.disk ∧ (∀ x ∉ l, s'.disk.block x = s.disk.block x) ∧
      ∀ p < l.length * pageSize, fileByte s'.disk l p = patch (fileByte s.disk l) offset data p := by
  obtain ⟨k, hk⟩ : ∃ k, offset / pageSize = k := ⟨_, rfl⟩
  have hoff : offset = k * pageSize + offset % pageSize := by
    rw [← hk, Nat.mul_comm]
    exact (Nat.div_add_mod offset pageSize).symm
  have hmod : offset % pageSize < pageSize := Nat.mod_lt _ (by decide)
  have hkl : k ≤ l.length := by
    rw [← hk]
    exact Nat.div_le_of_le_mul (by rw [Nat.mul_comm]; omega)
  obtain ⟨c, hskip, hchain⟩ := skipLoop_eq hd h hl hkl
  have hdrop : ∀ x ∈ l.drop k, x < 20480 := fun x hx => hl x (List.mem_of_mem_drop hx)
  have hfit : offset % pageSize + data.length ≤ (l.drop k).length * pageSize := by
    rw [List.length_drop, Nat.sub_mul]
    omega
  obtain ⟨s', hw, hs', hbytes⟩ := writeLoop_eq hd hchain hdrop hmod (Or.inl hfit)
  obtain ⟨hsb, hnext, hout⟩ := writeLoop_eq_pure hchain hmod.le hw
  rw [hk]
  refine ⟨c, s', hskip, hw, hsb, hs', hnext,
    fun x hx => hout x fun hm => hx (List.mem_of_mem_drop hm), fun p hp => ?_⟩
  rcases lt_or_ge p (k * pageSize) with hlow | hhigh
  · have htake : (l.take k).length = k := List.length_take_of_le hkl
    have hp' : p < (l.take k).length * pageSize := by rwa [htake]
    have hsame : fileByte s'.disk (l.take k) p = fileByte s.disk (l.take k) p := by
      refine fileByte_congr s.disk hp' fun x hx i _ => ?_
      have hnd := h.nodup
      rw [← List.take_append_drop k l] at hnd
      have hne : x ∉ l.drop k := fun hm => (List.nodup_append.mp hnd).2.2 x hx x hm rfl
      rw [hout x hne]
    rw [← fileByte_append _ _ (l.drop k) hp', ← fileByte_append _ _ (l.drop k) hp',
      List.take_append_drop] at hsame
    rw [hsame, patch_of_outside _ (Or.inl (by omega))]
  · obtain ⟨q, rfl⟩ := Nat.exists_eq_add_of_le hhigh
    have hq : q < (l.drop k).length * pageSize := by
      rw [List.length_drop, Nat.sub_mul]
      omega
    have hadd := patch_add (fileByte s.disk l) (k * pageSize) (offset % pageSize) data q
    rw [← hoff] at hadd
    rw [← fileByte_drop, hbytes q hq, hadd]
    exact patch_congr (fileByte_drop s.disk l k q)

end loops

theorem DirEntry.fileSize_lt (e : DirEntry) : e.fileSize < 2 ^ 32 := e.bytes.readLE_lt 16 4

/-- `simplefs_read` of a whole file: no file reaches the size that is asked for. -/
def readAll (s : State) (path : Path) : Call (Except ℤ (List UInt8)) :=
  simplefsRead s path (2 ^ 32) 0

section directory

variable {s s' : State} {path : Path} {e : DirEntry} {b : ℕ} {l dir : List ℕ}

/-- A whole file is read as far as its size and its chain go. -/
theorem readAll_eq (hfind : findEntry s path = pure (some (e, b))) (hd : s.disk.Sized)
    (hc : Chain (nextOf s.disk) 0 e.firstBlock l) (hl : ∀ x ∈ l, x < 20480) :
    readAll s path =
      pure (.ok (window (fileByte s.disk l) 0 (min e.fileSize (l.length * pageSize)))) := by
  have hlt := e.fileSize_lt
  unfold readAll simplefsRead
  simp only [hfind, pure_bind]
  by_cases h0 : e.fileSize = 0
  · rw [if_pos (by omega), h0, Nat.zero_min, window_zero]
  · have hread := readLoop_eq hd hc hl (show 0 < pageSize by decide) e.fileSize
    rw [Nat.sub_zero] at hread
    rw [if_neg (by omega), if_pos (by omega), Nat.zero_div, Nat.zero_mod, Nat.sub_zero]
    simp only [skipLoop, pure_bind, hread]

theorem findLoop_of_update (hd : s.disk.Sized) (hd' : s'.disk.Sized) {name : List UInt8} {r i : ℕ}
    {e' : DirEntry} (hdir : Chain (nextOf s.disk) 0 r dir)
    (hnext : ∀ x ∈ dir, nextOf s'.disk x = nextOf s.disk x)
    (hsame : ∀ x ∈ dir, x ≠ b → s'.disk.block x = s.disk.block x)
    (hfound : findName (s'.disk.block b) name = some i) (he' : dirAt (s'.disk.block b) i = e')
    (h : s.findLoop name r = pure (some (e, b))) :
    s'.findLoop name r = pure (some (e', b)) := by
  induction hdir with
  | nil =>
    rw [State.findLoop, if_pos rfl, Call.pure_inj] at h
    cases h
  | @cons a l hne _ ih =>
    rw [State.findLoop, if_neg hne] at h ⊢
    obtain ⟨blockData, hread, h⟩ := Call.bind_eq_pure.mp h
    obtain rfl := readBlock_eq_pure hread
    rw [readBlock_of_sized hd' (lt_of_readBlock hd hread), pure_bind]
    by_cases hab : a = b
    · subst hab
      simp only [hfound, he']
    · have hblock := hsame a List.mem_cons_self hab
      have hn : nextBlockNo (s'.disk.block a) = nextBlockNo (s.disk.block a) :=
        hnext a List.mem_cons_self
      cases hf : findName (s.disk.block a) name with
      | some j =>
        simp only [hf, Call.pure_inj, Option.some.injEq, Prod.mk.injEq] at h
        exact absurd h.2 hab
      | none =>
        simp only [hf] at h
        simp only [hblock, hf]
        exact ih (fun x hx => hnext x (List.mem_cons_of_mem _ hx))
          (fun x hx => hsame x (List.mem_cons_of_mem _ hx)) h

/-- The search finds the same slot again after an update of the directory block it is in. -/
theorem findEntry_of_update (hd : s.disk.Sized) (hd' : s'.disk.Sized) {i : ℕ} {e' : DirEntry}
    (hdir : Chain (nextOf s.disk) 0 s.sb.rootDirBlock dir)
    (hroot : s'.sb.rootDirBlock = s.sb.rootDirBlock)
    (hnext : ∀ x ∈ dir, nextOf s'.disk x = nextOf s.disk x)
    (hsame : ∀ x ∈ dir, x ≠ b → s'.disk.block x = s.disk.block x)
    (hfound : findName (s'.disk.block b) path.name = some i) (he' : dirAt (s'.disk.block b) i = e')
    (h : findEntry s path = pure (some (e, b))) : findEntry s' path = pure (some (e', b)) := by
  unfold findEntry at h ⊢
  split_ifs at h ⊢
  · rw [Call.pure_inj] at h
    cases h
  · rw [hroot]
    exact findLoop_of_update hd hd' hdir hnext hsame hfound he' h

/-- Storing an entry that keeps the string it was found by replaces it; else the search still finds
the old one. -/
theorem findName_storeEntry {blockData : Block} {name : List UInt8} {i : ℕ} {e' : DirEntry}
    (hname : name.length < dirEntrySize) (hname' : e'.name.length < dirEntrySize)
    (h : findName blockData name = some i) :
    findName (storeEntry blockData e'.name e') name = some i ∧
      dirAt (storeEntry blockData e'.name e') i =
        if e'.name = name then e' else dirAt blockData i := by
  obtain ⟨hi, hn, hbefore⟩ := (findName_eq_some_iff hname).mp h
  unfold storeEntry
  split_ifs with heq
  · rw [heq, h]
    simp only
    have hself : dirAt (setDirAt blockData i e') i = e' := by
      rw [dirAt_setDirAt _ _ hi hi, if_pos rfl]
    refine ⟨(findName_eq_some_iff hname).mpr ⟨hi, by rw [hself, heq], fun j hj => ?_⟩, hself⟩
    rw [dirAt_setDirAt _ _ hi (hj.trans hi), if_neg (by omega)]
    exact hbefore j hj
  · cases hf : findName blockData e'.name with
    | none => exact ⟨h, rfl⟩
    | some j =>
      obtain ⟨hj, hnj, -⟩ := (findName_eq_some_iff hname').mp hf
      have hij : i ≠ j := by
        rintro rfl
        exact heq (hnj.symm.trans hn)
      simp only
      have hold : dirAt (setDirAt blockData j e') i = dirAt blockData i := by
        rw [dirAt_setDirAt _ _ hj hi, if_neg hij]
      refine ⟨(findName_eq_some_iff hname).mpr ⟨hi, by rw [hold, hn], fun k hk => ?_⟩, hold⟩
      rw [dirAt_setDirAt _ _ hj (hk.trans hi)]
      split_ifs
      · exact heq
      · exact hbefore k hk

end directory

end SimpleFS.Chained
