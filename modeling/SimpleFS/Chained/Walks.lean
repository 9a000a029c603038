import SimpleFS.Chained.Parts

/-! The loops of the C implementation on chains that end: what they find, and how they hand blocks
on. -/
namespace SimpleFS.Chained
open Function

variable {d : Disk} {b : ℕ} {l : List ℕ}

theorem findLoop_eq_pure {s : State} (h : Chain (nextOf s.disk) 0 b l) {name : List UInt8}
    {e : DirEntry} {c : ℕ} (hf : s.findLoop name b = pure (some (e, c))) :
    c ∈ l ∧ readBlock s.disk c = pure (s.disk.block c) ∧
      ∃ i, findName (s.disk.block c) name = some i ∧ e = dirAt (s.disk.block c) i := by
  induction h with
  | nil =>
    rw [State.findLoop, if_pos rfl, Call.pure_inj] at hf
    cases hf
  | @cons a l hne _ ih =>
    rw [State.findLoop, if_neg hne] at hf
    obtain ⟨blockData, hread, hf⟩ := Call.bind_eq_pure.mp hf
    obtain rfl := readBlock_eq_pure hread
    cases hn : findName (s.disk.block a) name with
    | some i =>
      simp only [hn, Call.pure_inj, Option.some.injEq, Prod.mk.injEq] at hf
      obtain ⟨rfl, rfl⟩ := hf
      exact ⟨List.mem_cons_self, hread, i, hn, rfl⟩
    | none =>
      simp only [hn] at hf
      obtain ⟨hc, hi⟩ := ih hf
      exact ⟨List.mem_cons_of_mem _ hc, hi⟩

/-- The loop for the last block returns only at once. -/
theorem last_eq_some {c c' : Cursor} (h : c.last = some c') :
    c' = c ∧ nextBlockNo c.data = 0 := by
  refine Cursor.last.partial_correctness (fun c c' => c' = c ∧ nextBlockNo c.data = 0) ?_ c c' h
  intro loop ih c c' hc
  split_ifs at hc with hnext
  · exact absurd (ih _ _ hc).2 hnext
  · exact ⟨(Option.some.inj hc).symm, not_not.mp hnext⟩

/-- Past the end of a chain the walk stays at block zero. -/
theorem skipLoop_eq_pure (h : Chain (nextOf d) 0 b l) (h0 : nextOf d 0 = 0) {n c : ℕ}
    (hs : skipLoop d n b = pure c) : Chain (nextOf d) 0 c (l.drop n) := by
  induction n generalizing b l with
  | zero =>
    simp only [skipLoop, Call.pure_inj] at hs
    rwa [← hs]
  | succ n ih =>
    unfold skipLoop at hs
    obtain ⟨blockData, hread, hs⟩ := Call.bind_eq_pure.mp hs
    obtain rfl := readBlock_eq_pure hread
    cases h with
    | nil =>
      have hz : nextBlockNo (d.block 0) = 0 := h0
      rw [hz] at hs
      simpa using ih .nil hs
    | cons _ h => exact ih h hs

theorem nextOf_writeData (d : Disk) (b : ℕ) {off : ℕ} (hoff : off ≤ pageSize) (data : List UInt8) :
    nextOf (d.writeBlock b ((d.block b).copyAt off (min (pageSize - off) data.length)
      fun k => data.getD k 0)) = nextOf d := by
  funext c
  rw [nextOf_writeBlock]
  split_ifs with hc
  · subst hc
    unfold nextOf nextBlockNo
    rw [Vector.readLE_copyAt_of_disjoint]
    exact Or.inl (by omega)
  · rfl

/-- Writing data along a chain changes its blocks only, and no next pointer. -/
theorem writeLoop_eq_pure {s s' : State} (h : Chain (nextOf s.disk) 0 b l) {off : ℕ}
    {data : List UInt8} (hoff : off ≤ pageSize) (hw : s.writeLoop b off data = pure s') :
    s'.sb = s.sb ∧ nextOf s'.disk = nextOf s.disk ∧
      ∀ c ∉ l, s'.disk.block c = s.disk.block c := by
  induction l generalizing s b off data with
  | nil =>
    cases h
    rw [State.writeLoop, if_neg fun hc => hc.2 rfl, Call.pure_inj] at hw
    rw [hw]
    exact ⟨rfl, rfl, fun _ _ => rfl⟩
  | cons a l ih =>
    obtain ⟨_, heq, hnext⟩ := h.eq_cons fun hz => absurd ((h.eq_stop_iff).mp hz) (List.cons_ne_nil _ _)
    cases heq
    rw [State.writeLoop] at hw
    split_ifs at hw with hc
    · obtain ⟨blockData, hread, hw⟩ := Call.bind_eq_pure.mp hw
      obtain rfl := readBlock_eq_pure hread
      have hsame := nextOf_writeData s.disk a hoff data
      have hkeep := fun c (hc : c ≠ a) => Disk.block_writeBlock_of_ne s.disk
        ((s.disk.block a).copyAt off (min (pageSize - off) data.length) fun k => data.getD k 0) hc
      obtain ⟨disk, hdisk⟩ : ∃ disk, s.disk.writeBlock a ((s.disk.block a).copyAt off
        (min (pageSize - off) data.length) fun k => data.getD k 0) = disk := ⟨_, rfl⟩
      simp only [hdisk] at hw hsame hkeep
      have hchain : Chain (nextOf disk) 0 (nextBlockNo (s.disk.block a)) l :=
        hnext.congr fun c _ => congrFun hsame c
      obtain ⟨hsb, hn, hb⟩ := ih (s := ⟨s.sb, disk⟩) hchain (Nat.zero_le _) hw
      refine ⟨hsb, hn.trans hsame, fun c hcl => ?_⟩
      rw [List.mem_cons, not_or] at hcl
      rw [hb c hcl.2]
      exact hkeep c hcl.1
    · rw [Call.pure_inj] at hw
      rw [hw]
      exact ⟨rfl, rfl, fun _ _ => rfl⟩

namespace Parted

variable {s s' : State} {held : Owner → List ℕ} {loose : Option (ℕ × ℕ)}

/-- A chain in hand is freed block by block. -/
theorem freeLoop {α : Type} {note : α → α} {a a' : α} {rest : List ℕ} (h : Parted s held loose)
    (hc : Chain (nextOf s.disk) 0 b l) (hhand : held .hand = l ++ rest)
    (hf : State.freeLoop note a s b = pure (a', s')) :
    a' = note^[l.length] a ∧
      Parted s' (give held .hand .free rest (l.reverse ++ held .free)) loose ∧
      (∀ c ∉ l, nextOf s'.disk c = nextOf s.disk c) ∧
      ∀ c, c ≠ 0 → c ∉ l → s'.disk.block c = s.disk.block c := by
  induction l generalizing s a b held with
  | nil =>
    cases hc
    rw [State.freeLoop, if_pos rfl, Call.pure_inj, Prod.mk.injEq] at hf
    obtain ⟨rfl, rfl⟩ := hf
    have hsame : give held .hand .free rest ([].reverse ++ held .free) = held := by
      rw [List.nil_append] at hhand
      rw [give, ← hhand, update_eq_self, List.reverse_nil, List.nil_append, update_eq_self]
    rw [hsame]
    exact ⟨rfl, h, fun _ _ => rfl, fun _ _ _ => rfl⟩
  | cons x l ih =>
    have hb : b ≠ 0 := fun hz => absurd ((hc.eq_stop_iff).mp hz) (List.cons_ne_nil _ _)
    have hx := (List.nodup_cons.mp hc.nodup).1
    obtain ⟨_, heq, hnext⟩ := hc.eq_cons hb
    cases heq
    rw [State.freeLoop, if_neg hb] at hf
    obtain ⟨blockData, hread, hf⟩ := Call.bind_eq_pure.mp hf
    obtain rfl := readBlock_eq_pure hread
    obtain ⟨hp, hn, hd⟩ := h.freeBlock hhand
    have hne : ∀ {c}, c ∈ l → c ≠ x := fun hc hcx => hx (hcx ▸ hc)
    obtain ⟨ha, hp, hn', hd'⟩ := ih hp (hnext.congr fun c hc => hn c (hne hc))
      (give_left _ _ _ (by decide)) hf
    refine ⟨ha, ?_, ?_, ?_⟩
    · rw [give_right] at hp
      rw [List.reverse_cons, List.append_assoc, List.singleton_append]
      convert hp using 1
      funext o
      cases o <;> rfl
    · intro c hcl
      rw [List.mem_cons, not_or] at hcl
      rw [hn' c hcl.2, hn c hcl.1]
    · intro c hc hcl
      rw [List.mem_cons, not_or] at hcl
      rw [hd' c hc hcl.2, hd c hc hcl.1]

end Parted

end SimpleFS.Chained
