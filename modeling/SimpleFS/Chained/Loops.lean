import SimpleFS.Chained.Program

/-! The rules of the loops over chains, whatever the chains are: what one turn makes of any results,
the loop makes of its own. -/
namespace SimpleFS.Chained

theorem findLoop_induct {s : State} {name : List UInt8} {P : ℕ → Option (DirEntry × ℕ) → Prop}
    (hturn : ∀ loop : ℕ → Call (Option (DirEntry × ℕ)),
      (∀ b r, loop b = pure r → P b r) → ∀ b r,
        (if b = 0 then pure none
        else do
          let blockData ← readBlock s.disk b
          match findName blockData name with
          | some i => return some (dirAt blockData i, b)
          | none => loop (nextBlockNo blockData)) = pure r → P b r) :
    ∀ b r, s.findLoop name b = pure r → P b r := by
  apply State.findLoop.fixpoint_induct s name fun loop => ∀ b r, loop b = pure r → P b r
  · intro c _ hall
    refine Call.forall_of_bound (fun (loop : ℕ → Call (Option (DirEntry × ℕ))) b => loop b)
      ?_ ?_ _ hall
    · intro f g
      constructor
      · intro h b
        have hb := h b
        generalize f b = x, g b = y at hb ⊢
        cases hb
        · exact Or.inl rfl
        · exact Or.inr rfl
      · intro h b
        have hb := h b
        generalize f b = x, g b = y at hb ⊢
        rcases hb with rfl | rfl
        · constructor
        · constructor
    · intro f b
      exact ⟨fun c => if c = b then none else f c, if_pos rfl, fun c hc => if_neg hc⟩
  · exact hturn

theorem slotLoop_induct {s : State} {P : ℕ → Option (ℕ × Block × ℕ) × State → Prop}
    (hturn : ∀ loop : ℕ → Call (Option (ℕ × Block × ℕ) × State),
      (∀ b r, loop b = pure r → P b r) → ∀ b r,
        (if b = 0 then pure (none, s)
        else do
          let blockData ← readBlock s.disk b
          match findFree blockData with
          | some i => return (some (b, blockData, i), s)
          | none =>
            if nextBlockNo blockData = 0 then do
              let (new, s) ← allocateBlock s
              if new = 0 then return (none, s)
              let disk := s.disk.writeBlock b (setNextBlockNo blockData new)
              return (some (new, Vector.zeros blockSize, 0), { s with disk := disk })
            else loop (nextBlockNo blockData)) = pure r → P b r) :
    ∀ b r, s.slotLoop b = pure r → P b r := by
  apply State.slotLoop.fixpoint_induct s fun loop => ∀ b r, loop b = pure r → P b r
  · intro c _ hall
    refine Call.forall_of_bound
      (fun (loop : ℕ → Call (Option (ℕ × Block × ℕ) × State)) b => loop b) ?_ ?_ _ hall
    · intro f g
      constructor
      · intro h b
        have hb := h b
        generalize f b = x, g b = y at hb ⊢
        cases hb
        · exact Or.inl rfl
        · exact Or.inr rfl
      · intro h b
        have hb := h b
        generalize f b = x, g b = y at hb ⊢
        rcases hb with rfl | rfl
        · constructor
        · constructor
    · intro f b
      exact ⟨fun c => if c = b then none else f c, if_pos rfl, fun c hc => if_neg hc⟩
  · exact hturn

theorem freeLoop_induct {α : Type} {note : α → α} {P : α × State × ℕ → α × State → Prop}
    (hturn : ∀ loop : α → State → ℕ → Call (α × State),
      (∀ i r, loop i.1 i.2.1 i.2.2 = pure r → P i r) → ∀ i r,
        (if i.2.2 = 0 then pure (i.1, i.2.1)
        else do
          let blockData ← readBlock i.2.1.disk i.2.2
          loop (note i.1) (freeBlock i.2.1 i.2.2) (nextBlockNo blockData)) = pure r → P i r) :
    ∀ i r, State.freeLoop note i.1 i.2.1 i.2.2 = pure r → P i r := by
  apply State.freeLoop.fixpoint_induct note fun loop =>
    ∀ i r, loop i.1 i.2.1 i.2.2 = pure r → P i r
  · intro c _ hall
    refine Call.forall_of_bound
      (fun (loop : α → State → ℕ → Call (α × State)) (i : α × State × ℕ) => loop i.1 i.2.1 i.2.2)
      ?_ ?_ _ hall
    · intro f g
      constructor
      · intro h i
        have hi := h i.1 i.2.1 i.2.2
        generalize f i.1 i.2.1 i.2.2 = x, g i.1 i.2.1 i.2.2 = y at hi ⊢
        cases hi
        · exact Or.inl rfl
        · exact Or.inr rfl
      · intro h a s b
        have hi := h (a, s, b)
        dsimp only at hi
        generalize f a s b = x, g a s b = y at hi ⊢
        rcases hi with rfl | rfl
        · constructor
        · constructor
    · classical
      intro f i
      exact ⟨fun a s b => if (a, s, b) = i then none else f a s b, if_pos rfl,
        fun j hj => if_neg hj⟩
  · exact hturn

theorem writeLoop_induct {P : State × ℕ × ℕ × List UInt8 → State → Prop}
    (hturn : ∀ loop : State → ℕ → ℕ → List UInt8 → Call State,
      (∀ i r, loop i.1 i.2.1 i.2.2.1 i.2.2.2 = pure r → P i r) → ∀ i r,
        (if i.2.2.2.length > 0 ∧ i.2.1 ≠ 0 then do
          let blockData ← readBlock i.1.disk i.2.1
          let toWrite := min (pageSize - i.2.2.1) i.2.2.2.length
          let disk := i.1.disk.writeBlock i.2.1
            (blockData.copyAt i.2.2.1 toWrite fun k => i.2.2.2.getD k 0)
          loop { i.1 with disk := disk } (nextBlockNo blockData) 0 (i.2.2.2.drop toWrite)
        else pure i.1) = pure r → P i r) :
    ∀ i r, State.writeLoop i.1 i.2.1 i.2.2.1 i.2.2.2 = pure r → P i r := by
  apply State.writeLoop.fixpoint_induct fun loop =>
    ∀ i r, loop i.1 i.2.1 i.2.2.1 i.2.2.2 = pure r → P i r
  · intro c _ hall
    refine Call.forall_of_bound
      (fun (loop : State → ℕ → ℕ → List UInt8 → Call State) (i : State × ℕ × ℕ × List UInt8) =>
        loop i.1 i.2.1 i.2.2.1 i.2.2.2) ?_ ?_ _ hall
    · intro f g
      constructor
      · intro h i
        have hi := h i.1 i.2.1 i.2.2.1 i.2.2.2
        generalize f i.1 i.2.1 i.2.2.1 i.2.2.2 = x, g i.1 i.2.1 i.2.2.1 i.2.2.2 = y at hi ⊢
        cases hi
        · exact Or.inl rfl
        · exact Or.inr rfl
      · intro h s b off data
        have hi := h (s, b, off, data)
        dsimp only at hi
        generalize f s b off data = x, g s b off data = y at hi ⊢
        rcases hi with rfl | rfl
        · constructor
        · constructor
    · classical
      intro f i
      exact ⟨fun s b off data => if (s, b, off, data) = i then none else f s b off data, if_pos rfl,
        fun j hj => if_neg hj⟩
  · exact hturn

end SimpleFS.Chained
