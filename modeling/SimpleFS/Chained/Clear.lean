import SimpleFS.Chained.Loops
import SimpleFS.Chained.Walks

/-! Blocks that lead nowhere else: whatever the chains among them are, the loops that start at one of
them write to no other block. -/
namespace SimpleFS.Chained

/-- From the free list and from the blocks of `away` the next pointers do not leave `away`. -/
structure Clear (away : ℕ → Prop) (s : State) : Prop where
  zero : away 0
  next : ∀ b, away b → away (nextOf s.disk b)
  first : away s.sb.firstFreeBlock
  first_lt : s.sb.firstFreeBlock < 65536

/-- Only blocks of `away` were written, and nothing leaves it now. -/
structure Within (away : ℕ → Prop) (s s' : State) : Prop where
  clear : Clear away s'
  root : s'.sb.rootDirBlock = s.sb.rootDirBlock
  block : ∀ b, ¬ away b → s'.disk.block b = s.disk.block b

theorem Within.trans {away : ℕ → Prop} {s s' s'' : State} (h : Within away s s')
    (h' : Within away s' s'') : Within away s s'' where
  clear := h'.clear
  root := h'.root.trans h.root
  block b hb := (h'.block b hb).trans (h.block b hb)

namespace Clear

variable {away : ℕ → Prop} {s s' : State} {b : ℕ}

theorem refl (h : Clear away s) : Within away s s := ⟨h, rfl, fun _ _ => rfl⟩

/-- A block is written, and the superblock with it. -/
theorem put (h : Clear away s) (hb : away b) (buf : Block) (hbuf : away (nextBlockNo buf)) :
    Within away s ⟨s.sb, s.disk.writeBlock b buf⟩ where
  clear := {
    zero := h.zero
    next := fun c hc => by
      rw [nextOf_writeBlock]
      split_ifs
      · exact hbuf
      · exact h.next c hc
    first := h.first
    first_lt := h.first_lt }
  root := rfl
  block c hc := Disk.block_writeBlock_of_ne _ _ fun heq => hc (heq ▸ hb)

theorem putSuper (h : Clear away s) (sb : SuperBlock) (hroot : sb.rootDirBlock = s.sb.rootDirBlock)
    (hfirst : away sb.firstFreeBlock) (hlt : sb.firstFreeBlock < 65536) :
    Within away s ⟨sb, s.disk.writeBlock 0 (sb.copyTo (Vector.zeros blockSize))⟩ := by
  have hput := h.put h.zero (sb.copyTo (Vector.zeros blockSize)) (by
    rw [nextBlockNo_copyTo, nextBlockNo_zeros]
    exact h.zero)
  exact ⟨⟨h.zero, hput.clear.next, hfirst, hlt⟩, hroot, hput.block⟩

theorem allocateBlock (h : Clear away s) (ha : Chained.allocateBlock s = pure (b, s')) :
    Within away s s' ∧ away b ∧ b < 65536 := by
  by_cases h0 : s.sb.freeBlocks = 0
  · unfold Chained.allocateBlock at ha
    rw [if_pos h0] at ha
    simp only [Call.pure_inj, Prod.mk.injEq] at ha
    obtain ⟨rfl, rfl⟩ := ha
    exact ⟨h.refl, h.zero, by decide⟩
  · obtain ⟨rfl, rfl⟩ := allocateBlock_eq_pure h0 ha
    refine ⟨?_, h.first, h.first_lt⟩
    exact h.putSuper _ (s.sb.take_rootDirBlock _) (h.next _ h.first) (nextBlockNo_lt _)

theorem freeBlock (h : Clear away s) (hb : away b) (hlt : b < 65536) :
    Within away s (Chained.freeBlock s b) := by
  have hput := h.put hb (setNextBlockNo (Vector.zeros blockSize) s.sb.firstFreeBlock) (by
    rw [nextBlockNo_setNextBlockNo _ h.first_lt]
    exact h.first)
  exact hput.trans (hput.clear.putSuper _ rfl hb hlt)

theorem skipLoop (h : Clear away s) (hb : away b) {n c : ℕ}
    (hs : Chained.skipLoop s.disk n b = pure c) : away c := by
  induction n generalizing b with
  | zero =>
    simp only [Chained.skipLoop, Call.pure_inj] at hs
    exact hs ▸ hb
  | succ n ih =>
    unfold Chained.skipLoop at hs
    obtain ⟨blockData, hread, hs⟩ := Call.bind_eq_pure.mp hs
    obtain rfl := readBlock_eq_pure hread
    exact ih (h.next b hb) hs

theorem freeLoop {α : Type} {note : α → α} {a a' : α} (h : Clear away s) (hb : away b)
    (hlt : b < 65536) (hf : State.freeLoop note a s b = pure (a', s')) : Within away s s' := by
  have hloop : ∀ (i : α × State × ℕ) r, State.freeLoop note i.1 i.2.1 i.2.2 = pure r →
      Clear away i.2.1 → away i.2.2 → i.2.2 < 65536 → Within away i.2.1 r.2 := by
    apply freeLoop_induct
    intro loop hloop i r hr hi hb hlt
    split_ifs at hr
    · rw [Call.pure_inj] at hr
      rw [← hr]
      exact hi.refl
    · obtain ⟨blockData, hread, hr⟩ := Call.bind_eq_pure.mp hr
      obtain rfl := readBlock_eq_pure hread
      have hfree := hi.freeBlock hb hlt
      exact hfree.trans (hloop (note i.1, _, _) r hr hfree.clear (hi.next _ hb) (nextBlockNo_lt _))
  exact hloop (a, s, b) (a', s') hf h hb hlt

theorem writeLoop (h : Clear away s) (hb : away b) {off : ℕ} (hoff : off ≤ pageSize)
    {data : List UInt8} (hw : s.writeLoop b off data = pure s') : Within away s s' := by
  have hloop : ∀ (i : State × ℕ × ℕ × List UInt8) r,
      State.writeLoop i.1 i.2.1 i.2.2.1 i.2.2.2 = pure r → Clear away i.1 → away i.2.1 →
        i.2.2.1 ≤ pageSize → Within away i.1 r := by
    apply writeLoop_induct
    intro loop hloop i r hr hi hb hoff
    split_ifs at hr with hmore
    · obtain ⟨blockData, hread, hr⟩ := Call.bind_eq_pure.mp hr
      obtain rfl := readBlock_eq_pure hread
      have hnext := congrFun (nextOf_writeData i.1.disk i.2.1 hoff i.2.2.2) i.2.1
      rw [nextOf_writeBlock, if_pos rfl] at hnext
      have hput := hi.put hb _ (hnext.symm ▸ hi.next _ hb)
      exact hput.trans (hloop (_, _, 0, _) r hr hput.clear (hi.next _ hb) (Nat.zero_le _))
    · rw [Call.pure_inj] at hr
      rw [← hr]
      exact hi.refl
  exact hloop (s, b, off, data) s' hw h hb hoff

/-- The new blocks come from the free list, and the name does not change. -/
theorem growLoop {n : ℕ} : ∀ {s : State} {e : DirEntry} {last : Cursor} {r : Option DirEntry},
    Clear away s → away e.firstBlock → (e.firstBlock ≠ 0 → away last.block) →
    Chained.growLoop s e last n = pure (r, s') →
      Within away s s' ∧ ∀ e', r = some e' → away e'.firstBlock ∧ e.SameName e' := by
  induction n with
  | zero =>
    intro s e last r h he _ hg
    simp only [Chained.growLoop, Call.pure_inj, Prod.mk.injEq] at hg
    obtain ⟨rfl, rfl⟩ := hg
    refine ⟨h.refl, fun e' heq => ?_⟩
    obtain rfl := Option.some.inj heq
    exact ⟨he, fun _ _ => rfl⟩
  | succ n ih =>
    intro s e last r h he hlast hg
    unfold Chained.growLoop at hg
    obtain ⟨⟨new, s₁⟩, ha, hg⟩ := Call.bind_eq_pure.mp hg
    obtain ⟨hw, hnew, hlt⟩ := h.allocateBlock ha
    by_cases hz : new = 0
    · simp only [if_pos hz, Call.pure_inj, Prod.mk.injEq] at hg
      obtain ⟨rfl, rfl⟩ := hg
      exact ⟨hw, fun _ heq => absurd heq.symm (Option.some_ne_none _)⟩
    simp only [if_neg hz] at hg
    by_cases hfirst : e.firstBlock = 0
    · simp only [if_pos hfirst] at hg
      have he' : away ((e.setFirstBlock new).setBlockCount
          ((e.setFirstBlock new).blockCount + 1)).firstBlock := by
        rw [DirEntry.firstBlock_setBlockCount, DirEntry.firstBlock_setFirstBlock _ hlt]
        exact hnew
      obtain ⟨hw', hname⟩ := ih hw.clear he' (fun _ => hnew) hg
      refine ⟨hw.trans hw', fun e' heq => ⟨(hname e' heq).1, ?_⟩⟩
      exact ((e.sameName_setFirstBlock new).trans (DirEntry.sameName_setBlockCount _ _)).trans
        (hname e' heq).2
    · simp only [if_neg hfirst] at hg
      have hput := hw.clear.put (hlast hfirst) (setNextBlockNo last.data new) (by
        rw [nextBlockNo_setNextBlockNo _ hlt]
        exact hnew)
      have he' : away (e.setBlockCount (e.blockCount + 1)).firstBlock := by
        rw [DirEntry.firstBlock_setBlockCount]
        exact he
      obtain ⟨hw', hname⟩ := ih hput.clear he' (fun _ => hnew) hg
      refine ⟨(hw.trans hput).trans hw', fun e' heq => ⟨(hname e' heq).1, ?_⟩⟩
      exact (e.sameName_setBlockCount _).trans (hname e' heq).2

theorem shrink (h : Clear away s) {e e' : DirEntry} (he : away e.firstBlock) {required : ℕ}
    (hs : Chained.shrink s e required = pure (e', s')) :
    Within away s s' ∧ e'.firstBlock = e.firstBlock ∧ e.SameName e' := by
  have hloop : ∀ (i : DirEntry × State × ℕ) r,
      State.freeLoop (fun e => e.setBlockCount (e.blockCount + (2 ^ 16 - 1))) i.1 i.2.1 i.2.2 =
        pure r → r.1.firstBlock = i.1.firstBlock ∧ i.1.SameName r.1 := by
    apply freeLoop_induct
    intro loop hloop i r hr
    split_ifs at hr
    · rw [Call.pure_inj] at hr
      rw [← hr]
      exact ⟨rfl, fun _ _ => rfl⟩
    · obtain ⟨blockData, -, hr⟩ := Call.bind_eq_pure.mp hr
      obtain ⟨hfirst, hname⟩ := hloop (i.1.setBlockCount (i.1.blockCount + (2 ^ 16 - 1)),
        Chained.freeBlock i.2.1 i.2.2, nextBlockNo blockData) r hr
      exact ⟨hfirst.trans (i.1.firstBlock_setBlockCount _),
        (i.1.sameName_setBlockCount _).trans hname⟩
  unfold Chained.shrink at hs
  obtain ⟨keep, hskip, hs⟩ := Call.bind_eq_pure.mp hs
  obtain ⟨blockData, hread, hs⟩ := Call.bind_eq_pure.mp hs
  obtain rfl := readBlock_eq_pure hread
  have hkeep := h.skipLoop he hskip
  have hput := h.put hkeep (setNextBlockNo (s.disk.block keep) 0) (by
    rw [nextBlockNo_setNextBlockNo _ (by decide)]
    exact h.zero)
  refine ⟨hput.trans (hput.clear.freeLoop (h.next _ hkeep) (nextBlockNo_lt _) hs), ?_⟩
  exact hloop (e, _, _) (e', s') hs

/-- Fitting the blocks of a file whose chain stays in `away`. -/
theorem resize (h : Clear away s) {e : DirEntry} (he : away e.firstBlock) {required : ℕ}
    {r : Option DirEntry} (hr : Chained.resize s e required = pure (r, s')) :
    Within away s s' ∧ ∀ e', r = some e' → away e'.firstBlock ∧ e.SameName e' := by
  unfold Chained.resize at hr
  split_ifs at hr
  · unfold grow at hr
    dsimp only at hr
    split_ifs at hr with hfirst
    · exact h.growLoop he (fun hne => absurd hfirst hne) hr
    · obtain ⟨blockData, -, hr⟩ := Call.bind_eq_pure.mp hr
      obtain ⟨last, hlast, hr⟩ := Call.bind_eq_pure.mp hr
      obtain ⟨heq, -⟩ := last_eq_some (Call.lift_eq_pure.mp hlast)
      refine h.growLoop he (fun _ => ?_) hr
      rw [heq]
      exact he
  · obtain ⟨⟨e₁, s₁⟩, hs, hr⟩ := Call.bind_eq_pure.mp hr
    simp only [Call.pure_inj, Prod.mk.injEq] at hr
    obtain ⟨rfl, rfl⟩ := hr
    obtain ⟨hw, hfirst, hname⟩ := h.shrink he hs
    refine ⟨hw, fun e' heq => ?_⟩
    obtain rfl := Option.some.inj heq
    exact ⟨hfirst ▸ he, hname⟩
  · simp only [Call.pure_inj, Prod.mk.injEq] at hr
    obtain ⟨rfl, rfl⟩ := hr
    refine ⟨h.refl, fun e' heq => ?_⟩
    obtain rfl := Option.some.inj heq
    exact ⟨he, fun _ _ => rfl⟩

end Clear

end SimpleFS.Chained
