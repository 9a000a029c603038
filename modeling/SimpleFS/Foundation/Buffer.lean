import Mathlib.Algebra.Order.Group.Nat
import Mathlib.Tactic.Ring

/-! Fixed-size byte buffers: windows of a buffer, overwriting a window, and the
little-endian numbers stored in one. -/
namespace Vector

variable {n m : ℕ}

/-- The byte at offset `i`, zero past the end. -/
def byteAt (v : Vector UInt8 n) (i : ℕ) : UInt8 := if h : i < n then v[i] else 0

def zeros (n : ℕ) : Vector UInt8 n := .ofFn fun _ => 0

/-- Overwrite the `len` bytes from `off` with `src 0, src 1, …`. -/
def copyAt (v : Vector UInt8 n) (off len : ℕ) (src : ℕ → UInt8) : Vector UInt8 n :=
  .ofFn fun i => if off ≤ i ∧ i < off + len then src (i - off) else v[i]

/-- The window of `m` bytes from `off`. -/
def slice (v : Vector UInt8 n) (off m : ℕ) : Vector UInt8 m := .ofFn fun i => v.byteAt (off + i)

theorem byteAt_ofFn (f : Fin n → UInt8) {i : ℕ} (h : i < n) :
    (Vector.ofFn f).byteAt i = f ⟨i, h⟩ := by
  simp [byteAt, h]

theorem byteAt_of_le (v : Vector UInt8 n) {i : ℕ} (h : n ≤ i) : v.byteAt i = 0 := by
  simp [byteAt, Nat.not_lt.mpr h]

@[simp] theorem byteAt_zeros (i : ℕ) : (zeros n).byteAt i = 0 := by
  unfold byteAt zeros
  split_ifs <;> simp

theorem ext_byteAt {v w : Vector UInt8 n} (h : ∀ i < n, v.byteAt i = w.byteAt i) : v = w := by
  ext i hi
  simpa [byteAt, hi] using congrArg UInt8.toNat (h i hi)

theorem byteAt_copyAt (v : Vector UInt8 n) (off len : ℕ) (src : ℕ → UInt8) (i : ℕ) :
    (v.copyAt off len src).byteAt i =
      if off ≤ i ∧ i < off + len ∧ i < n then src (i - off) else v.byteAt i := by
  by_cases hi : i < n
  · rw [copyAt, byteAt_ofFn _ hi]
    simp [byteAt, hi]
  · simp [byteAt, hi]

theorem byteAt_slice (v : Vector UInt8 n) (off : ℕ) {i : ℕ} (h : i < m) :
    (v.slice off m).byteAt i = v.byteAt (off + i) := by
  rw [slice, byteAt_ofFn _ h]

/-- A window is unaffected by an overwrite that does not meet it. -/
theorem slice_copyAt_of_disjoint (v : Vector UInt8 n) {off len off' m : ℕ} (src : ℕ → UInt8)
    (h : off + len ≤ off' ∨ off' + m ≤ off) :
    (v.copyAt off len src).slice off' m = v.slice off' m := by
  apply ext_byteAt
  intro i hi
  rw [byteAt_slice _ _ hi, byteAt_slice _ _ hi, byteAt_copyAt, if_neg (by omega)]

theorem slice_copyAt_self (v : Vector UInt8 n) {off m : ℕ} (w : Vector UInt8 m)
    (h : off + m ≤ n) : (v.copyAt off m w.byteAt).slice off m = w := by
  apply ext_byteAt
  intro i hi
  rw [byteAt_slice _ _ hi, byteAt_copyAt, if_pos (by omega), Nat.add_sub_cancel_left]

theorem copyAt_slice_self (v : Vector UInt8 n) (off m : ℕ) :
    v.copyAt off m (v.slice off m).byteAt = v := by
  apply ext_byteAt
  intro i hi
  rw [byteAt_copyAt]
  split_ifs with h
  · rw [byteAt_slice _ _ (by omega), Nat.add_sub_cancel' h.1]
  · rfl

/-- Change the byte at offset `i`. -/
def modifyByte (v : Vector UInt8 n) (i : ℕ) (f : UInt8 → UInt8) : Vector UInt8 n :=
  v.copyAt i 1 fun _ => f (v.byteAt i)

theorem byteAt_modifyByte (v : Vector UInt8 n) (i j : ℕ) (f : UInt8 → UInt8) (h : i < n) :
    (v.modifyByte i f).byteAt j = if j = i then f (v.byteAt i) else v.byteAt j := by
  rw [modifyByte, byteAt_copyAt]
  split_ifs <;> first | rfl | omega

/-- The number stored little-endian in the first `w` bytes of `f`. -/
def leValue (f : ℕ → UInt8) : ℕ → ℕ
  | 0 => 0
  | w + 1 => leValue f w + (f w).toNat * 256 ^ w

/-- Byte `i` of the little-endian form of `x`. -/
def leByte (x i : ℕ) : UInt8 := UInt8.ofNat (x / 256 ^ i)

theorem leValue_lt (f : ℕ → UInt8) (w : ℕ) : leValue f w < 256 ^ w := by
  induction w with
  | zero => simp [leValue]
  | succ w ih =>
    have hb : (f w).toNat + 1 ≤ 256 := (f w).toNat_lt
    have hm := Nat.mul_le_mul_right (256 ^ w) hb
    simp only [leValue, pow_succ]
    rw [Nat.add_mul] at hm
    omega

theorem leValue_congr {f g : ℕ → UInt8} {w : ℕ} (h : ∀ i < w, f i = g i) :
    leValue f w = leValue g w := by
  induction w with
  | zero => rfl
  | succ w ih =>
    rw [leValue, leValue, ih fun i hi => h i (by omega), h w (by omega)]

theorem leValue_leByte (x w : ℕ) : leValue (leByte x) w = x % 256 ^ w := by
  induction w with
  | zero => simp [leValue, Nat.mod_one]
  | succ w ih =>
    have hb : (leByte x w).toNat = x / 256 ^ w % 256 := rfl
    rw [leValue, ih, hb, Nat.mod_pow_succ, Nat.mul_comm]

theorem leByte_leValue (f : ℕ → UInt8) {w i : ℕ} (h : i < w) : leByte (leValue f w) i = f i := by
  induction w with
  | zero => omega
  | succ w ih =>
    rw [leByte, leValue]
    rcases Nat.lt_succ_iff_lt_or_eq.mp h with hi | rfl
    · have hp : (256 : ℕ) ^ w = 256 ^ i * 256 * 256 ^ (w - i - 1) := by
        rw [← pow_succ, ← pow_add]
        congr 1
        omega
      have hd : (leValue f w + (f w).toNat * 256 ^ w) / 256 ^ i =
          leValue f w / 256 ^ i + 256 * ((f w).toNat * 256 ^ (w - i - 1)) := by
        rw [hp, show (f w).toNat * (256 ^ i * 256 * 256 ^ (w - i - 1)) =
          256 ^ i * (256 * ((f w).toNat * 256 ^ (w - i - 1))) by ring,
          Nat.add_mul_div_left _ _ (Nat.pow_pos (by decide))]
      rw [hd, ← ih hi, leByte, UInt8.ofNat_add]
      apply UInt8.toNat_inj.mp
      simp
    · rw [Nat.add_mul_div_right _ _ (Nat.pow_pos (by decide)), Nat.div_eq_of_lt (leValue_lt f i),
        Nat.zero_add, UInt8.ofNat_toNat]

/-- The little-endian number in the `w` bytes from `off`. -/
def readLE (v : Vector UInt8 n) (off w : ℕ) : ℕ := leValue (fun i => v.byteAt (off + i)) w

theorem readLE_lt (v : Vector UInt8 n) (off w : ℕ) : v.readLE off w < 256 ^ w := leValue_lt _ _

@[simp] theorem readLE_zeros (off w : ℕ) : (zeros n).readLE off w = 0 := by
  simp only [readLE, byteAt_zeros]
  induction w with
  | zero => rfl
  | succ w ih => simp [leValue, ih]

theorem readLE_copyAt_self (v : Vector UInt8 n) {off w : ℕ} (x : ℕ) (h : off + w ≤ n) :
    (v.copyAt off w (leByte x)).readLE off w = x % 256 ^ w := by
  rw [readLE, ← leValue_leByte]
  apply leValue_congr
  intro i hi
  rw [byteAt_copyAt, if_pos (by omega), Nat.add_sub_cancel_left]

theorem readLE_copyAt_of_disjoint (v : Vector UInt8 n) {off len off' w : ℕ} (src : ℕ → UInt8)
    (h : off + len ≤ off' ∨ off' + w ≤ off) :
    (v.copyAt off len src).readLE off' w = v.readLE off' w := by
  apply leValue_congr
  intro i hi
  rw [byteAt_copyAt, if_neg (by omega)]

theorem readLE_slice (v : Vector UInt8 n) {base off w m : ℕ} (h : off + w ≤ m) :
    (v.slice base m).readLE off w = v.readLE (base + off) w := by
  apply leValue_congr
  intro i hi
  rw [byteAt_slice _ _ (by omega), Nat.add_assoc]

theorem copyAt_copyAt_self (v : Vector UInt8 n) (off len : ℕ) (f g : ℕ → UInt8) :
    (v.copyAt off len f).copyAt off len g = v.copyAt off len g := by
  apply ext_byteAt
  intro i _
  simp only [byteAt_copyAt]
  split_ifs <;> rfl

theorem copyAt_readLE_self (v : Vector UInt8 n) (off w : ℕ) :
    v.copyAt off w (leByte (v.readLE off w)) = v := by
  apply ext_byteAt
  intro i _
  rw [byteAt_copyAt]
  split_ifs with h
  · rw [readLE, leByte_leValue _ (by omega), Nat.add_sub_cancel' h.1]
  · rfl

/-- Store `x 0, …, x (count - 1)` one after the other from `off`, `w` bytes each. -/
def copyArray (v : Vector UInt8 n) (off w count : ℕ) (x : ℕ → ℕ) : Vector UInt8 n :=
  (List.range count).foldl (fun buf i => buf.copyAt (off + i * w) w (leByte (x i))) v

theorem copyArray_succ (v : Vector UInt8 n) (off w count : ℕ) (x : ℕ → ℕ) :
    v.copyArray off w (count + 1) x =
      (v.copyArray off w count x).copyAt (off + count * w) w (leByte (x count)) := by
  simp [copyArray, List.range_succ]

theorem readLE_copyArray_self (v : Vector UInt8 n) {off w count i : ℕ} (x : ℕ → ℕ)
    (hi : i < count) (h : off + count * w ≤ n) :
    (v.copyArray off w count x).readLE (off + i * w) w = x i % 256 ^ w := by
  induction count with
  | zero => omega
  | succ count ih =>
    rw [copyArray_succ]
    rw [Nat.add_mul] at h
    rcases Nat.lt_succ_iff_lt_or_eq.mp hi with hlt | rfl
    · have hm := Nat.mul_le_mul_right w (Nat.succ_le_of_lt hlt)
      rw [Nat.succ_mul] at hm
      rw [readLE_copyAt_of_disjoint _ _ (Or.inr (by omega)), ih hlt (by omega)]
    · exact readLE_copyAt_self _ _ (by omega)

theorem readLE_copyArray_of_disjoint (v : Vector UInt8 n) {off w count off' w' : ℕ} (x : ℕ → ℕ)
    (h : off' + w' ≤ off ∨ off + count * w ≤ off') :
    (v.copyArray off w count x).readLE off' w' = v.readLE off' w' := by
  induction count with
  | zero => rfl
  | succ count ih =>
    rw [Nat.add_mul] at h
    rw [copyArray_succ, readLE_copyAt_of_disjoint _ _ (by omega), ih (by omega)]

/-- The first `k` bytes of the two buffers are the same. -/
def AgreeTo (k : ℕ) (v w : Vector UInt8 n) : Prop := ∀ i < k, v.byteAt i = w.byteAt i

theorem AgreeTo.zero (v w : Vector UInt8 n) : AgreeTo 0 v w := fun _ hi => absurd hi (by omega)

/-- Storing the number that `w` holds behind the common part extends that part. -/
theorem AgreeTo.copyAt {k len x : ℕ} {v w : Vector UInt8 n} (h : AgreeTo k v w)
    (hn : k + len ≤ n) (hx : x = w.readLE k len) :
    AgreeTo (k + len) (v.copyAt k len (leByte x)) w := by
  intro i hi
  rw [byteAt_copyAt]
  split_ifs with hk
  · rw [hx, readLE, leByte_leValue _ (show i - k < len by omega), Nat.add_sub_cancel' hk.1]
  · exact h i (by omega)

theorem AgreeTo.copyArray {k len count : ℕ} {x : ℕ → ℕ} {v w : Vector UInt8 n}
    (h : AgreeTo k v w) (hn : k + count * len ≤ n)
    (hx : ∀ i < count, x i = w.readLE (k + i * len) len) :
    AgreeTo (k + count * len) (v.copyArray k len count x) w := by
  induction count with
  | zero => simpa [Vector.copyArray] using h
  | succ count ih =>
    rw [Nat.add_mul, Nat.one_mul] at hn ⊢
    rw [copyArray_succ, ← Nat.add_assoc]
    exact (ih (by omega) fun i hi => hx i (by omega)).copyAt (by omega) (hx count (by omega))

theorem u16_ofNat_leValue (x : UInt16) : UInt16.ofNat (x.toNat % 256 ^ 2) = x := by
  rw [Nat.mod_eq_of_lt (show x.toNat < 256 ^ 2 from x.toNat_lt), UInt16.ofNat_toNat]

theorem u32_ofNat_leValue (x : UInt32) : UInt32.ofNat (x.toNat % 256 ^ 4) = x := by
  rw [Nat.mod_eq_of_lt (show x.toNat < 256 ^ 4 from x.toNat_lt), UInt32.ofNat_toNat]

theorem u64_ofNat_leValue (x : UInt64) : UInt64.ofNat (x.toNat % 256 ^ 8) = x := by
  rw [Nat.mod_eq_of_lt (show x.toNat < 256 ^ 8 from x.toNat_lt), UInt64.ofNat_toNat]

theorem toNat_u16_readLE (v : Vector UInt8 n) (off : ℕ) :
    (UInt16.ofNat (v.readLE off 2)).toNat = v.readLE off 2 := by
  rw [UInt16.toNat_ofNat']
  exact Nat.mod_eq_of_lt (v.readLE_lt off 2)

theorem toNat_u32_readLE (v : Vector UInt8 n) (off : ℕ) :
    (UInt32.ofNat (v.readLE off 4)).toNat = v.readLE off 4 := by
  rw [UInt32.toNat_ofNat']
  exact Nat.mod_eq_of_lt (v.readLE_lt off 4)

theorem toNat_i64_readLE (v : Vector UInt8 n) (off : ℕ) :
    (UInt64.ofNat (v.readLE off 8)).toInt64.toUInt64.toNat = v.readLE off 8 := by
  rw [UInt64.toUInt64_toInt64, UInt64.toNat_ofNat']
  exact Nat.mod_eq_of_lt (v.readLE_lt off 8)

end Vector
