import SimpleFS.Chained.Walks

/-! How a write fits the blocks of a file. New blocks are linked in front of what is left of the
free list, since the last of them keeps its next pointer; surplus blocks go back to it. -/
namespace SimpleFS.Chained
open Function

/-- `block_count--`, `m` times. -/
theorem DirEntry.iterate_discount (e : DirEntry) {m : ℕ} (hm : m ≤ e.blockCount) {e' : DirEntry}
    (he : (fun e => setBlockCount e (e.blockCount + (2 ^ 16 - 1)))^[m] e = e') :
    e'.firstBlock = e.firstBlock ∧ e'.blockCount = e.blockCount - m ∧ e.SameName e' := by
  induction m generalizing e with
  | zero =>
    obtain rfl := he
    exact ⟨rfl, rfl, fun _ _ => rfl⟩
  | succ m ih =>
    have hlt := e.blockCount_lt
    have hb : (e.setBlockCount (e.blockCount + (2 ^ 16 - 1))).blockCount = e.blockCount - 1 := by
      rw [blockCount_setBlockCount]
      omega
    obtain ⟨h1, h2, h3⟩ := ih (e.setBlockCount (e.blockCount + (2 ^ 16 - 1))) (by omega) he
    exact ⟨h1.trans (e.firstBlock_setBlockCount _), by omega, (e.sameName_setBlockCount _).trans h3⟩

/-- A chain from `first` that another block can be linked to: it has no block, or `last` is the
last one that counts. -/
def Linkable (next : ℕ → ℕ) (first last : ℕ) (l : List ℕ) : Prop :=
  (first = 0 ∧ l = []) ∨
    ∃ pre t, first ≠ 0 ∧ l = pre ++ [last] ∧ Chain next 0 first (pre ++ last :: t)

/-- How the growing loop ends. -/
inductive GrowOutcome (s : State) (held : Owner → List ℕ) (loose : Option (ℕ × ℕ)) (e : DirEntry)
    (n : ℕ) : Option DirEntry → State → Prop
  | full {s'} : (held .free).length < n →
      Parted s' (give held .free .hand [] (held .hand ++ held .free)) loose →
      (∀ b ∈ held .dir, s'.disk.block b = s.disk.block b) →
      (held .free = [] → s' = s) →
      GrowOutcome s held loose e n none s'
  | grown {e' s' taken rest} : held .free = taken ++ rest → taken.length = n →
      Parted s' (give held .free .hand rest (held .hand ++ taken)) loose →
      Chain (nextOf s'.disk) 0 e'.firstBlock (held .hand ++ taken ++ rest) →
      (∀ b ∈ held .dir, s'.disk.block b = s.disk.block b) →
      e.SameName e' →
      e'.firstBlock = (if e.firstBlock = 0 then s.sb.firstFreeBlock else e.firstBlock) →
      e'.blockCount = (e.blockCount + n) % 65536 →
      GrowOutcome s held loose e n (some e') s'

namespace Parted

variable {s s' : State} {held : Owner → List ℕ} {loose : Option (ℕ × ℕ)}

/-- One more block: it becomes the last one, and the free list follows it. -/
theorem growStep (h : Parted s held loose) {e : DirEntry} {last new : ℕ} (blockData : Block)
    (hlink : Linkable (nextOf s.disk) e.firstBlock last (held .hand)) {s₁ : State}
    (ha : Chained.allocateBlock s = pure (new, s₁)) (hnew : new ≠ 0) {e' : DirEntry} {disk : Disk}
    (hset : (if e.firstBlock = 0 then (e.setFirstBlock new, s₁.disk)
      else (e, s₁.disk.writeBlock last (setNextBlockNo blockData new))) = (e', disk)) :
    ∃ rest, held .free = new :: rest ∧
      Parted ⟨s₁.sb, disk⟩ (give held .free .hand rest (held .hand ++ [new])) loose ∧
      Chain (nextOf disk) 0 e'.firstBlock (held .hand ++ new :: rest) ∧ e'.firstBlock ≠ 0 ∧
      (∀ b ∈ held .dir, disk.block b = s.disk.block b) ∧ e.SameName e' ∧
      e'.firstBlock = (if e.firstBlock = 0 then s.sb.firstFreeBlock else e.firstBlock) ∧
      e'.blockCount = e.blockCount := by
  rcases h.allocateBlock ha with ⟨hz, -, -⟩ | ⟨rest, hfree, hp, hchain, hblocks⟩
  · exact absurd hz hnew
  have hin := h.inside .free new (by rw [hfree]; exact List.mem_cons_self)
  have hlt : new < 65536 := by
    have h2 := hin.2
    simp only [maxBlocks, diskSize, blockSize] at h2
    omega
  have hfirst : new = s.sb.firstFreeBlock := by
    obtain ⟨_, heq, -⟩ := h.free.eq_cons fun hz => by
      rw [(h.free.eq_stop_iff).mp hz] at hfree
      cases hfree
    rw [hfree] at heq
    exact (List.cons.inj heq).1
  have hkeep : ∀ {disk : Disk}, Parted ⟨s₁.sb, disk⟩
      (give held .free .hand rest (new :: held .hand)) loose →
      Parted ⟨s₁.sb, disk⟩ (give held .free .hand rest (held .hand ++ [new])) loose := by
    intro disk hd
    have hperm : (held .hand ++ [new]).Perm (new :: held .hand) := List.perm_append_singleton _ _
    have hn := hd.exclusive.nodup .hand
    have hsub : held .hand ++ [new] ⊆ give held .free .hand rest (new :: held .hand) .hand := by
      rw [give_right]
      exact hperm.subset
    rw [give_right] at hn
    have hk := hd.keep (hperm.nodup_iff.mpr hn) hsub
    rwa [give, update_idem] at hk
  refine ⟨rest, hfree, ?_⟩
  rcases hlink with ⟨hf, hhand⟩ | ⟨pre, t, hf, hhand, hc⟩
  · rw [if_pos hf] at hset
    simp only [Prod.mk.injEq] at hset
    obtain ⟨rfl, rfl⟩ := hset
    have hfb := e.firstBlock_setFirstBlock hlt
    rw [if_pos hf, hfb, hhand, List.nil_append]
    refine ⟨?_, hchain, hnew, fun b hb => hblocks b (h.ne_zero hb), e.sameName_setFirstBlock new,
      hfirst, e.blockCount_setFirstBlock new⟩
    have hk := hkeep hp
    rwa [hhand, List.nil_append] at hk
  · rw [if_neg hf] at hset
    simp only [Prod.mk.injEq] at hset
    obtain ⟨rfl, rfl⟩ := hset
    have hlast : last ∈ held .hand := by
      rw [hhand]
      exact List.mem_append_right _ List.mem_cons_self
    have hne : ∀ b ∈ new :: rest, b ≠ last := fun b hb =>
      h.ne_of_mem (o := .free) (p := .hand) (by decide) (hfree ▸ hb) hlast
    have hnext : ∀ c, c ≠ last → nextOf (s₁.disk.writeBlock last (setNextBlockNo blockData new)) c =
        nextOf s₁.disk c := by
      intro c hc
      rw [nextOf_writeBlock, if_neg hc]
    have hpre : ∀ x ∈ pre, x ≠ last ∧ x ≠ 0 := by
      intro x hx
      have hn := h.exclusive.nodup .hand
      rw [hhand] at hn
      have hmem : x ∈ held .hand := by
        rw [hhand]
        exact List.mem_append_left _ hx
      exact ⟨fun heq => (List.nodup_append.mp hn).2.2 x hx last List.mem_cons_self heq,
        h.ne_zero hmem⟩
    rw [if_neg hf]
    refine ⟨hkeep ?_, ?_, hf, ?_, fun _ _ => rfl, rfl, rfl⟩
    · refine hp.writeBlock_hand ?_ _
      rw [give_right]
      exact List.mem_cons_of_mem _ hlast
    · rw [hhand, List.append_assoc]
      refine hc.relink ?_ ?_
      · intro x hx
        rw [hnext x (hpre x hx).1, nextOf, hblocks x (hpre x hx).2, nextOf]
      · rw [nextOf_writeBlock, if_pos rfl, nextBlockNo_setNextBlockNo _ hlt]
        exact hchain.congr fun x hx => hnext x (hne x hx)
    · intro b hb
      have hbl : b ≠ last := h.ne_of_mem (by decide) hb hlast
      exact (Disk.block_writeBlock_of_ne _ _ hbl).trans (hblocks b (h.ne_zero hb))

theorem growLoop (h : Parted s held loose) {e : DirEntry} {last : Cursor} {n : ℕ}
    {r : Option DirEntry} (hlink : Linkable (nextOf s.disk) e.firstBlock last.block (held .hand))
    (hn : 0 < n) (hg : Chained.growLoop s e last n = pure (r, s')) :
    GrowOutcome s held loose e n r s' := by
  induction n generalizing s held e last with
  | zero => omega
  | succ n ih =>
    unfold Chained.growLoop at hg
    obtain ⟨⟨new, s₁⟩, ha, hg⟩ := Call.bind_eq_pure.mp hg
    by_cases hnew : new = 0
    · simp only [if_pos hnew, Call.pure_inj, Prod.mk.injEq] at hg
      obtain ⟨rfl, rfl⟩ := hg
      rcases h.allocateBlock ha with ⟨-, rfl, hfree⟩ | ⟨rest, hfree, -⟩
      · refine .full (by rw [hfree]; exact Nat.succ_pos n) ?_ (fun _ _ => rfl) fun _ => rfl
        have hsame : give held .free .hand [] (held .hand ++ held .free) = held := by
          rw [give, ← hfree, update_eq_self, hfree, List.append_nil, update_eq_self]
        rwa [hsame]
      · have hin := h.inside .free new (by rw [hfree]; exact List.mem_cons_self)
        omega
    · simp only [if_neg hnew] at hg
      obtain ⟨⟨e₁, disk⟩, hset⟩ : ∃ p, (if e.firstBlock = 0 then (e.setFirstBlock new, s₁.disk)
        else (e, s₁.disk.writeBlock last.block (setNextBlockNo last.data new))) = p := ⟨_, rfl⟩
      simp only [hset] at hg
      obtain ⟨rest, hfree, hp, hc, hne, hdir, hname, hfirst, hcount⟩ :=
        h.growStep last.data hlink ha hnew hset
      have hhand : give held .free .hand rest (held .hand ++ [new]) .hand = held .hand ++ [new] :=
        give_right ..
      have hfree₁ : give held .free .hand rest (held .hand ++ [new]) .free = rest :=
        give_left _ _ _ (by decide)
      have hname₁ : e.SameName (e₁.setBlockCount (e₁.blockCount + 1)) :=
        hname.trans (e₁.sameName_setBlockCount _)
      have hgive : ∀ l l', give (give held .free .hand rest (held .hand ++ [new])) .free .hand l l' =
          give held .free .hand l l' := by
        intro l l'
        funext o
        cases o <;> rfl
      cases n with
      | zero =>
        unfold Chained.growLoop at hg
        simp only [Call.pure_inj, Prod.mk.injEq] at hg
        obtain ⟨rfl, rfl⟩ := hg
        have hfree : held .free = [new] ++ rest := hfree
        refine .grown hfree rfl hp ?_ hdir hname₁ ?_ ?_
        · rw [DirEntry.firstBlock_setBlockCount, List.append_assoc]
          exact hc
        · rw [DirEntry.firstBlock_setBlockCount, hfirst]
        · rw [DirEntry.blockCount_setBlockCount, hcount]
      | succ n =>
        have hlink₁ : Linkable (nextOf disk) (e₁.setBlockCount (e₁.blockCount + 1)).firstBlock new
            (give held .free .hand rest (held .hand ++ [new]) .hand) := by
          rw [hhand, DirEntry.firstBlock_setBlockCount]
          exact Or.inr ⟨held .hand, rest, hne, rfl, hc⟩
        cases ih hp hlink₁ (Nat.succ_pos n) hg with
        | full hlen hp' hdir' _ =>
          rw [hfree₁] at hlen
          rw [hgive, hhand, hfree₁] at hp'
          refine .full (by rw [hfree, List.length_cons]; omega) ?_
            (fun b hb => (hdir' b hb).trans (hdir b hb)) fun hnil => ?_
          · rwa [hfree, ← List.singleton_append, ← List.append_assoc]
          · rw [hnil] at hfree
            cases hfree
        | @grown e' s' taken rest' hsplit hlen hp' hc' hdir' hname' hfirst' hcount' =>
          rw [hfree₁] at hsplit
          rw [hgive, hhand] at hp'
          rw [hhand] at hc'
          have hfree' : held .free = (new :: taken) ++ rest' := by
            rw [hfree, hsplit, List.cons_append]
          refine .grown hfree' ?_ ?_ ?_ ?_ ?_ ?_ ?_
          · rw [List.length_cons, hlen]
          · rwa [← List.singleton_append, ← List.append_assoc]
          · rwa [← List.singleton_append, ← List.append_assoc]
          · exact fun b hb => (hdir' b hb).trans (hdir b hb)
          · exact hname₁.trans hname'
          · rw [hfirst', DirEntry.firstBlock_setBlockCount, if_neg hne, hfirst]
          · rw [hcount', DirEntry.blockCount_setBlockCount, hcount]
            omega

/-- Growing a file that has one block at most; a longer one keeps the request from returning. -/
theorem grow (h : Parted s held loose) {e : DirEntry} {required : ℕ} {r : Option DirEntry}
    (hc : Chain (nextOf s.disk) 0 e.firstBlock (held .hand)) (hreq : e.blockCount < required)
    (hg : Chained.grow s e required = pure (r, s')) :
    GrowOutcome s held loose e (required - e.blockCount) r s' := by
  unfold Chained.grow at hg
  split_ifs at hg with hf
  · exact h.growLoop (Or.inl ⟨hf, (hc.eq_stop_iff).mp hf⟩) (by omega) hg
  · obtain ⟨blockData, hread, hg⟩ := Call.bind_eq_pure.mp hg
    obtain ⟨last, hlast, hg⟩ := Call.bind_eq_pure.mp hg
    obtain rfl := readBlock_eq_pure hread
    obtain ⟨rfl, hnext⟩ := last_eq_some (Call.lift_eq_pure.mp hlast)
    obtain ⟨rest, hhand, hrest⟩ := hc.eq_cons hf
    have hz : nextOf s.disk e.firstBlock = 0 := hnext
    rw [hz] at hrest
    rw [hrest.eq_nil] at hhand
    have hc : Chain (nextOf s.disk) 0 e.firstBlock ([] ++ e.firstBlock :: []) := by
      rw [List.nil_append, ← hhand]
      exact hc
    have hlink : Linkable (nextOf s.disk) e.firstBlock
        (Cursor.block ⟨e.firstBlock, s.disk.block e.firstBlock⟩) (held .hand) :=
      Or.inr ⟨[], [], hf, hhand, hc⟩
    exact h.growLoop hlink (by omega) hg

/-- Cutting the chain of a file: the rest goes to the free list. -/
theorem shrink (h : Parted s held loose) {e e' : DirEntry} {required : ℕ}
    (hc : Chain (nextOf s.disk) 0 e.firstBlock (held .hand))
    (hcount : (held .hand).length = e.blockCount) (hreq : required < e.blockCount)
    (hs : Chained.shrink s e required = pure (e', s')) :
    ∃ kept freed, held .hand = kept ++ freed ∧
      Parted s' (give held .hand .free kept (freed.reverse ++ held .free)) loose ∧
      Chain (nextOf s'.disk) 0 e'.firstBlock kept ∧ kept.length = e'.blockCount ∧
      e'.firstBlock = e.firstBlock ∧ e.SameName e' ∧
      ∀ b ∈ held .dir, s'.disk.block b = s.disk.block b := by
  unfold Chained.shrink at hs
  obtain ⟨c, hskip, hs⟩ := Call.bind_eq_pure.mp hs
  obtain ⟨blockData, hread, hs⟩ := Call.bind_eq_pure.mp hs
  obtain rfl := readBlock_eq_pure hread
  have hdrop := skipLoop_eq_pure hc h.stopped hskip
  have hlen : ((held .hand).drop (required - 1)).length ≠ 0 := by
    rw [List.length_drop]
    omega
  have hc0 : c ≠ 0 := fun hz => hlen (by rw [(hdrop.eq_stop_iff).mp hz]; rfl)
  obtain ⟨freed, hsplit, hfreed⟩ := hdrop.eq_cons hc0
  have hhand : held .hand = (held .hand).take (required - 1) ++ c :: freed := by
    rw [← hsplit, List.take_append_drop]
  obtain ⟨pre, hpre⟩ : ∃ pre, (held .hand).take (required - 1) = pre := ⟨_, rfl⟩
  rw [hpre] at hhand
  have hnodup := h.exclusive.nodup .hand
  rw [hhand] at hnodup hc
  have hmem : ∀ x, x ∈ pre ++ c :: freed → x ∈ held .hand := fun x hx => by rwa [hhand]
  have hcm : c ∈ held .hand := hmem c (List.mem_append_right _ List.mem_cons_self)
  have hw := h.writeBlock_hand hcm (setNextBlockNo (s.disk.block c) 0)
  have hnext : ∀ x, x ≠ c → nextOf (s.disk.writeBlock c (setNextBlockNo (s.disk.block c) 0)) x =
      nextOf s.disk x := by
    intro x hx
    rw [nextOf_writeBlock, if_neg hx]
  obtain ⟨-, hcfreed, hpc⟩ := List.nodup_append.mp hnodup
  have hfc : ∀ x ∈ freed, x ≠ c := fun x hx heq => (List.nodup_cons.mp hcfreed).1 (heq ▸ hx)
  have hperm : (freed ++ (pre ++ [c])).Perm (held .hand) := by
    rw [hhand, List.append_cons pre c freed]
    exact List.perm_append_comm
  have hk := hw.keep (hperm.nodup_iff.mpr (h.exclusive.nodup .hand)) hperm.subset
  have hchain : Chain (nextOf (s.disk.writeBlock c (setNextBlockNo (s.disk.block c) 0))) 0
      (nextBlockNo (s.disk.block c)) freed :=
    hfreed.congr fun x hx => hnext x (hfc x hx)
  obtain ⟨he, hp, hn, hd⟩ := hk.freeLoop hchain (update_self ..) hs
  have hkept : Chain (nextOf (s.disk.writeBlock c (setNextBlockNo (s.disk.block c) 0))) 0
      e.firstBlock (pre ++ [c]) := by
    refine hc.relink (fun x hx => hnext x fun heq => hpc x hx c List.mem_cons_self heq) ?_
    rw [nextOf_writeBlock, if_pos rfl, nextBlockNo_setNextBlockNo _ (by decide)]
    exact .nil
  have hlenAll : pre.length + (freed.length + 1) = e.blockCount := by
    rw [← hcount, hhand, List.length_append, List.length_cons]
  obtain ⟨hfb, hbc, hname⟩ := e.iterate_discount (by omega) he.symm
  refine ⟨pre ++ [c], freed, ?_, ?_, ?_, ?_, hfb, hname, ?_⟩
  · rw [hhand, List.append_cons]
  · convert hp using 1
    funext o
    cases o <;> rfl
  · rw [hfb]
    refine hkept.congr fun x hx => hn x fun hxf => ?_
    rcases List.mem_append.mp hx with hx | hx
    · exact hpc x hx x (List.mem_cons_of_mem _ hxf) rfl
    · exact hfc x hxf (List.mem_singleton.mp hx)
  · rw [hbc, List.length_append, List.length_singleton]
    omega
  · intro b hb
    have hbc : b ≠ c := h.ne_of_mem (by decide) hb hcm
    refine (hd b (h.ne_zero hb) fun hbf => ?_).trans (Disk.block_writeBlock_of_ne _ _ hbc)
    exact h.ne_of_mem (o := .dir) (p := .hand) (by decide) hb
      (hmem b (List.mem_append_right _ (List.mem_cons_of_mem _ hbf))) rfl

end Parted

end SimpleFS.Chained
