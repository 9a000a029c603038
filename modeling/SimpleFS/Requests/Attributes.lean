import SimpleFS.Requests.WriteLimits

/-! What `setattr` does with a size and with a mode. -/
namespace SimpleFS
open Overlay

/-- The mode that `setattr` sets keeps all four type bits. -/
theorem setMode_and_type (mode : UInt16) (newMode : UInt32) :
    ((mode &&& 0xF000) ||| (newMode &&& 0o777).toUInt16) &&& 0xF000 = mode &&& 0xF000 := by
  have hbits : ∀ k < 16, (0xF000#16).getLsbD k = true → (0o777#16).getLsbD k = false := by decide
  apply UInt16.toBitVec_inj.mp
  apply BitVec.eq_of_getLsbD_eq
  intro k hk
  cases htype : (0xF000#16).getLsbD k with
  | false => simp [htype]
  | true => simp [htype, hbits k hk htype]

/-- Inode `n` keeps its size, its block map, its links, its type and its content, and every other
inode keeps everything. -/
structure Kept (fs fs' : Fs) (n : ℕ) : Prop where
  size : (fs'.disk.inode n).size = (fs.disk.inode n).size
  blockMap : SameMap (fs'.disk.inode n) (fs.disk.inode n)
  nlink : (fs'.disk.inode n).nlink = (fs.disk.inode n).nlink
  typeBits : (fs'.disk.inode n).mode &&& 0xF000 = (fs.disk.inode n).mode &&& 0xF000
  block : ∀ b ∈ fs.disk.held n, fs'.disk.block b = fs.disk.block b
  inode : ∀ m, InodeNo m → m ≠ n → fs'.disk.inode m = fs.disk.inode m
  others : ∀ m ≠ n, ∀ b ∈ fs.disk.held m, fs'.disk.block b = fs.disk.block b

/-- `size` is the size of file `n`, which was of size `old` and had the content `bytes`: the
attributes say so, and reading gives the old bytes and then zeros. Where it is zero, a write at the
beginning becomes the whole file. -/
structure Resized (fs' : Fs) (n : ℕ) (bytes : ℕ → UInt8) (old size : ℕ) (attr : FileAttr) :
    Prop where
  attr : attr.size = size
  read : ∀ (offset : Int64) (count : UInt32), 0 ≤ offset.toInt →
    fs'.read n offset count = some (.data (window (fun x => if x < old then bytes x else 0)
      offset.toInt.toNat (min count.toNat (size - offset.toInt.toNat))), fs')
  overwrite : size = 0 → ∀ (data : List UInt8) now k fs'',
    fs'.write n 0 data now = some (.written k, fs'') →
    ∀ count : UInt32, fs''.read n 0 count = some (.data (data.take count.toNat), fs'')

/-- A `setattr` that is answered has done what was asked. -/
def AttributesSet (fs : Fs) (n : ℕ) (mode : Option UInt32) (size : Option UInt64)
    (now : ℕ → Int64) : Prop :=
  ∀ ttl attr fs', fs.setattr n mode size now = some (.attr ttl attr, fs') →
    match size with
    | some size => Resized fs' n ((fs.disk.inode n).content fs.disk)
        (fs.disk.inode n).size.toNat size.toNat attr
    | none => Kept fs fs' n

section Setattr

variable {fs fs' : Fs} {n : ℕ}

theorem Attributed.kept (h : Attributed fs fs' n) (hc : Consistent fs) (hn : fs.disk.Live n)
    (htype : (fs'.disk.inode n).mode &&& 0xF000 = (fs.disk.inode n).mode &&& 0xF000) :
    Kept fs fs' n where
  size := h.size
  blockMap := h.sameMap
  nlink := h.nlink
  typeBits := htype
  block b hb := h.restamped.block b (hn.held ▸ hb)
  inode m hm hne := h.footprint.inode m hm (by simpa using hne)
  others m _ b hb := by
    obtain ⟨hlow, -, -, hr⟩ := hc.owned.range m b hb
    exact h.footprint.block b (by omega) hr (by simp) (by simp)

/-- A write at the beginning of an empty file is the whole file. -/
theorem Wrote.read_whole {data : List UInt8} {new : List ℕ} (h : Wrote fs fs' n 0 data new)
    (hn : fs.disk.Live n) (hm : (fs.disk.inode n).Mapped fs.disk)
    (hsize : (fs.disk.inode n).size = 0) (count : UInt32) :
    fs'.read n 0 count = some (.data (data.take count.toNat), fs') := by
  have hlive : fs'.disk.Live n := ⟨hn.1, by rw [h.nlink]; exact hn.2⟩
  have hfits : 0 + data.length ≤ 510 * (fs'.disk.inode n).blockCount.toNat := h.fits
  have hcount := (fs'.disk.inode n).blockCount.toNat_lt
  have hnew : (fs'.disk.inode n).size.toNat = data.length := by
    rw [h.size, toNat_newSize (by decide) (show 0 + data.length < 2 ^ 32 by omega), hsize]
    exact Nat.max_eq_right (Nat.zero_le _) |>.trans (Nat.zero_add _)
  rw [Fs.read_eq h.consistent hlive (h.mapped hm) (by omega) (by decide), h.content hm, hnew]
  refine congrArg (fun bytes => some (Reply.data bytes, fs')) ?_
  show window (patch ((fs.disk.inode n).content fs.disk) 0 data) 0
    (min count.toNat (data.length - 0)) = data.take count.toNat
  apply List.ext_getElem
  · rw [length_window, List.length_take, Nat.sub_zero]
  · intro i hi hi'
    rw [length_window] at hi
    have hlt : i < data.length := by omega
    simp only [window, List.getElem_map, List.getElem_range, List.getElem_take, patch,
      Nat.zero_add, Nat.sub_zero, Nat.zero_le, if_true, List.getElem?_eq_getElem hlt,
      Option.getD_some]

/-- A file that keeps its size has the size that was asked for. -/
theorem Attributed.resized (h : Attributed fs fs' n) (hr : Reserved fs'.disk) (hn : fs.disk.Live n)
    (hm : (fs.disk.inode n).Mapped fs.disk)
    (hfits : (fs.disk.inode n).size.toNat ≤ 510 * (fs.disk.inode n).blockCount.toNat)
    {attr : FileAttr} (hattr : attr.size = (fs.disk.inode n).size.toNat) :
    Resized fs' n ((fs.disk.inode n).content fs.disk) (fs.disk.inode n).size.toNat
      (fs.disk.inode n).size.toNat attr := by
  have hlive : fs'.disk.Live n := ⟨hn.1, by rw [h.nlink]; exact hn.2⟩
  have hmapped := h.restamped.mapped hm
  have hfits' : (fs'.disk.inode n).size.toNat ≤ 510 * (fs'.disk.inode n).blockCount.toNat := by
    rw [h.size, h.sameMap.blockCount]
    exact hfits
  refine ⟨hattr, fun offset count h0 => ?_, fun hzero data now k fs'' hwrite count => ?_⟩
  · rw [Fs.read_eq h.consistent hlive hmapped hfits' h0, h.restamped.content hm, h.size]
    refine congrArg (fun bytes => some (Reply.data bytes, fs')) (window_congr fun x _ hx => ?_)
    rw [if_pos (by omega)]
  · have hsize : (fs'.disk.inode n).size = 0 := by
      rw [h.size]
      exact UInt32.toNat_inj.mp hzero
    cases writeAttempt_outcome h.consistent hlive (hr.stepSafe _)
      (Fs.answered_eq_some.mp hwrite) with
    | empty hnil =>
      rw [Fs.read_eq h.consistent hlive hmapped hfits' (by decide), hsize, hnil, UInt32.toNat_zero,
        Nat.zero_sub, Nat.min_zero, window_zero, List.take_nil]
    | wrote _ _ _ hw => exact hw.read_whole hlive hmapped hsize count

/-- `setattr` does what was asked exactly when no size was asked, or the size that the file had. -/
theorem attributesSet_iff (hc : Consistent fs) (hr : Reserved fs.disk) (hn : fs.disk.Live n)
    (hm : (fs.disk.inode n).Mapped fs.disk)
    (hfits : (fs.disk.inode n).size.toNat ≤ 510 * (fs.disk.inode n).blockCount.toNat)
    (mode : Option UInt32) (size : Option UInt64) (now : ℕ → Int64) :
    AttributesSet fs n mode size now ↔
      size = none ∨ size = some (fs.disk.inode n).size.toUInt64 := by
  have hanswer := setattr_some hc hn mode size now
  have hattributed := setattr_outcome hc hn hanswer
  have hsame : ({ Fs.setMode (fs.disk.inode n) mode with mtime := now 0 } : Inode).size =
      (fs.disk.inode n).size := size_setMode _ mode
  constructor
  · intro h
    cases size with
    | none => exact Or.inl rfl
    | some size =>
      right
      have hsize := (h _ _ _ hanswer).attr
      refine congrArg some (UInt64.toNat_inj.mp ?_)
      rw [UInt32.toNat_toUInt64, ← hsize]
      exact congrArg UInt32.toNat hsame
  · rintro h ttl attr fs' hset
    rw [hanswer] at hset
    obtain ⟨hreply, rfl⟩ := Prod.mk.inj (Option.some.inj hset)
    obtain ⟨-, rfl⟩ := Reply.attr.inj hreply
    rcases h with rfl | rfl
    · refine hattributed.kept hc hn ?_
      have hinode := Disk.inode_putInode_self fs.disk
        { Fs.setMode (fs.disk.inode n) mode with mtime := now 0 }
      rw [(sameMap_setMode (fs.disk.inode n) mode (now 0)).inodeNo,
        Consistent.toNat_inodeNo hn.1] at hinode
      rw [hinode]
      cases mode with
      | none => rfl
      | some newMode => exact setMode_and_type _ newMode
    · dsimp only
      rw [UInt32.toNat_toUInt64]
      exact hattributed.resized ((hattributed.touched hn).reserved hc hr) hn hm hfits
        (congrArg UInt32.toNat hsame)

end Setattr

theorem attributesSet_mode : ∃ (fs : Fs) (n : ℕ),
    AttributesSet fs n (some 0o600) none fun _ => 0 := by
  obtain ⟨fs, n, hs, -, hn, hinode, -⟩ := exists_file [] List.nodup_nil (by simp)
  have hfits : (fs.disk.inode n).size.toNat ≤ 510 * (fs.disk.inode n).blockCount.toNat := by
    rw [hinode]
    exact Nat.zero_le _
  exact ⟨fs, n, (attributesSet_iff hs.toConsistent hs.reserved hn (hs.mapped n hn) hfits _ _ _).mpr
    (Or.inl rfl)⟩

/-- An empty file that is to get a size of five keeps the size zero. -/
theorem not_attributesSet_five : ∃ (fs fs' : Fs) (n : ℕ) (ttl : ℕ) (attr : FileAttr),
    BlockSound fs ∧ TreeSound fs.disk ∧ fs.disk.Live n ∧ (fs.disk.inode n).isDir = false ∧
    fs.setattr n none (some 5) (fun _ => 0) = some (.attr ttl attr, fs') ∧ attr.size = 0 ∧
    ¬ AttributesSet fs n none (some 5) fun _ => 0 := by
  obtain ⟨fs, n, hs, ht, hn, hinode, -⟩ := exists_file [] List.nodup_nil (by simp)
  have hanswer := setattr_some hs.toConsistent hn none (some 5) fun _ => 0
  have hsize : (fs.disk.inode n).size.toNat = 0 := by
    rw [hinode]
    rfl
  refine ⟨fs, _, n, _, _, hs, ht, hn, by rw [hinode, isDir_createdInode], hanswer, hsize, ?_⟩
  intro h
  have hfive : (fs.disk.inode n).size.toNat = 5 := (h _ _ _ hanswer).attr
  omega

end SimpleFS
