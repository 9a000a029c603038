import Mathlib.Data.List.Range

/-! Single bits of a byte, as a bitmap stores them. -/
namespace UInt8

/-- Bit `k` of a byte. -/
def bit (x : UInt8) (k : ℕ) : Bool := x.toBitVec.getLsbD k

/-- The byte with only bit `k` set, `1u8 << k`. -/
def bitMask (k : ℕ) : UInt8 := 1 <<< UInt8.ofNat k

theorem bit_bitMask : ∀ k < 8, ∀ j < 8, (bitMask k).bit j = decide (j = k) := by
  decide

theorem bit_or_bitMask (x : UInt8) {k j : ℕ} (hk : k < 8) (hj : j < 8) :
    (x ||| bitMask k).bit j = (decide (j = k) || x.bit j) := by
  rw [← bit_bitMask k hk j hj]
  simp [bit, Bool.or_comm]

theorem bit_and_not_bitMask (x : UInt8) {k j : ℕ} (hk : k < 8) (hj : j < 8) :
    (x &&& ~~~bitMask k).bit j = (!decide (j = k) && x.bit j) := by
  rw [← bit_bitMask k hk j hj]
  simp [bit, hj, Bool.and_comm]

theorem ext_bit {x y : UInt8} (h : ∀ k < 8, x.bit k = y.bit k) : x = y := by
  apply UInt8.toBitVec_inj.mp
  apply BitVec.eq_of_getLsbD_eq
  exact h

theorem and_bitMask_eq_zero (x : UInt8) {k : ℕ} (hk : k < 8) :
    x &&& bitMask k = 0 ↔ x.bit k = false := by
  have hand : ∀ j < 8, (x &&& bitMask k).bit j = (x.bit j && decide (j = k)) := by
    intro j hj
    rw [← bit_bitMask k hk j hj]
    simp [bit]
  constructor
  · intro h
    simpa [h, bit] using (hand k hk).symm
  · intro h
    apply ext_bit
    intro j hj
    rw [hand j hj]
    have hzero : bit 0 j = false := by simp [bit]
    by_cases hjk : j = k
    · rw [hzero, hjk, h, Bool.false_and]
    · simp [hzero, hjk]

/-- A byte other than `0xFF` has a bit to spare. -/
theorem exists_bit_eq_false {x : UInt8} (h : x ≠ 0xFF) : ∃ k < 8, x.bit k = false := by
  by_contra hn
  apply h
  apply ext_bit
  intro k hk
  have hx : x.bit k = true := by
    by_contra hb
    exact hn ⟨k, hk, by simpa using hb⟩
  rw [hx]
  exact (by decide : ∀ k < 8, true = bit 0xFF k) k hk

theorem bit_full : ∀ k < 8, bit 0xFF k = true := by
  decide

end UInt8
