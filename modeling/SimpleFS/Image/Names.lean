import SimpleFS.Image.Slots

/-! The names that directory entries hold. A name that is too long is cut, and is then another
name or none that can be decoded. -/
namespace SimpleFS

theorem fromUTF8?_toByteArray (s : String) : String.fromUTF8? s.toByteArray = some s := by
  rw [String.fromUTF8?, dif_pos s.isValidUTF8]
  rfl

theorem toByteArray_of_fromUTF8? {b : ByteArray} {s : String} (h : String.fromUTF8? b = some s) :
    s.toByteArray = b := by
  unfold String.fromUTF8? at h
  split_ifs at h
  exact (Option.some.inj h) ▸ rfl

theorem size_toByteArray_ne_zero {s : String} (h : s ≠ "") : s.toByteArray.size ≠ 0 := by
  intro h0
  apply h
  rw [← String.toByteArray_inj, String.toByteArray_empty]
  exact ByteArray.size_eq_zero_iff.mp h0

namespace DirEntry

theorem toNat_nameLen_new (n : ℕ) (name : String) (isDir : Bool) :
    (new n name isDir).nameLen.toNat = min name.toByteArray.size 28 := by
  simp only [new, maxNameLen]
  rw [UInt8.toNat_ofNat', Nat.mod_eq_of_lt (by omega)]

theorem nameBytes_new (n : ℕ) (name : String) (isDir : Bool) :
    (new n name isDir).nameBytes = ⟨name.toByteArray.data.extract 0 28⟩ := by
  rw [nameBytes, toNat_nameLen_new]
  refine congrArg ByteArray.mk (Array.ext ?_ fun i hi hi' => ?_)
  · simp only [Array.size_extract, Vector.size_toArray, maxNameLen, ByteArray.size_data]
    omega
  · simp only [Array.size_extract, Vector.size_toArray, maxNameLen, ByteArray.size_data] at hi hi'
    have hsize : i < name.toByteArray.data.size := by
      rw [ByteArray.size_data]
      omega
    simp only [Array.getElem_extract, Nat.zero_add, new, Vector.copyAt, Vector.toArray_ofFn,
      Array.getElem_ofFn, maxNameLen]
    rw [if_pos ⟨Nat.zero_le _, by omega⟩, Nat.sub_zero, Array.getElem?_eq_getElem hsize,
      Option.getD_some]

theorem isEmpty_new (n : ℕ) {name : String} (isDir : Bool) (h : name ≠ "") :
    (new n name isDir).isEmpty = false := by
  have hpos := size_toByteArray_ne_zero h
  have hlen := toNat_nameLen_new n name isDir
  rw [isEmpty, beq_eq_false_iff_ne]
  intro h0
  rw [h0, UInt8.toNat_zero] at hlen
  omega

/-- The name of a new entry can always be read. -/
theorem nameStr_new (n : ℕ) (name : String) (isDir : Bool) :
    (new n name isDir).nameStr =
      some ((String.fromUTF8? ⟨name.toByteArray.data.extract 0 28⟩).getD "???") := by
  rw [nameStr, if_pos, nameBytes_new]
  rw [toNat_nameLen_new]
  exact min_le_right _ _

/-- A name that fits is kept. -/
theorem nameStr_new_of_le (n : ℕ) {name : String} (isDir : Bool) (h : name.toByteArray.size ≤ 28) :
    (new n name isDir).nameStr = some name := by
  rw [nameStr_new, Array.extract_eq_self_of_le h, fromUTF8?_toByteArray]
  rfl

/-- A name that does not fit is kept as one of 28 bytes or as the text for undecodable names. -/
theorem nameStr_new_of_lt (n : ℕ) {name : String} (isDir : Bool) (h : 28 < name.toByteArray.size) :
    ∃ s, (new n name isDir).nameStr = some s ∧ (s = "???" ∨ s.toByteArray.size = 28) := by
  refine ⟨_, nameStr_new n name isDir, ?_⟩
  cases hs : String.fromUTF8? ⟨name.toByteArray.data.extract 0 28⟩ with
  | none => exact Or.inl rfl
  | some s =>
    right
    rw [Option.getD_some, toByteArray_of_fromUTF8? hs]
    show (name.toByteArray.data.extract 0 28).size = 28
    rw [Array.size_extract, ByteArray.size_data]
    omega

theorem named_new_of_le (n : ℕ) {name : String} (isDir : Bool) (h : name.toByteArray.size ≤ 28)
    (s : String) : (new n name isDir).named s = decide (name = s) := by
  rw [named, nameStr_new_of_le n isDir h]
  by_cases hs : name = s <;> simp [hs]

/-- The entry is neither `.` nor `..`. -/
def ordinary (e : DirEntry) : Bool := !e.named "." && !e.named ".."

theorem ordinary_iff {e : DirEntry} :
    e.ordinary = true ↔ e.named "." = false ∧ e.named ".." = false := by
  simp [ordinary]

/-- A new entry for another name does not read as `.` or `..`, even when the name is cut. -/
theorem ordinary_new (n : ℕ) {name : String} (isDir : Bool) (hdot : name ≠ ".")
    (hdotdot : name ≠ "..") : (new n name isDir).ordinary = true := by
  rw [ordinary_iff]
  rcases Nat.lt_or_ge 28 name.toByteArray.size with h | h
  · obtain ⟨s, hs, hcut⟩ := nameStr_new_of_lt n isDir h
    have hne : s ≠ "." ∧ s ≠ ".." := by
      rcases hcut with rfl | hsize
      · decide
      · exact ⟨fun heq => by rw [heq] at hsize; revert hsize; decide,
          fun heq => by rw [heq] at hsize; revert hsize; decide⟩
    rw [named, named, hs]
    simpa using hne
  · rw [named_new_of_le n isDir h, named_new_of_le n isDir h]
    exact ⟨decide_eq_false hdot, decide_eq_false hdotdot⟩

@[simp] theorem inode_new (n : ℕ) (name : String) (isDir : Bool) :
    (new n name isDir).inode = .ofNat n := rfl

@[simp] theorem entryType_new (n : ℕ) (name : String) (isDir : Bool) :
    (new n name isDir).entryType = if isDir then 2 else 1 := rfl

/-- The entries `.` and `..` of a new directory. -/
theorem named_new_dot (n : ℕ) : (new n "." true).named "." = true ∧
    (new n "." true).named ".." = false := by
  rw [named_new_of_le n true (by decide), named_new_of_le n true (by decide)]
  decide

theorem named_new_dotdot (n : ℕ) : (new n ".." true).named "." = false ∧
    (new n ".." true).named ".." = true := by
  rw [named_new_of_le n true (by decide), named_new_of_le n true (by decide)]
  decide

end DirEntry

end SimpleFS
