import SimpleFS.Requests.FileRuns

/-! What `write` checks and what it does not: the size of a file, and the space on the disk. -/
namespace SimpleFS
open Bitmap Overlay

/-- The blocks up to the end of a write, in the machine words that `write` counts them in. -/
def blocksToEnd (offset : Int64) (len : ℕ) : ℕ :=
  (offset.toUInt64.toNat + len + 509) % 2 ^ 64 / 510 % 2 ^ 32

section Refused

variable {fs : Fs} {n : ℕ} {offset : Int64} {data : List UInt8}

theorem write_tooBig (hc : Consistent fs) (hn : fs.disk.Live n) (hdata : data ≠ [])
    (hbig : 20 < (Fs.requiredBlocks offset data.length).toNat) (now : ℕ → Int64) :
    fs.write n offset data now = some (.error .EFBIG, fs) := by
  have hzero : data.length ≠ 0 := fun h0 => hdata (List.eq_nil_of_length_eq_zero h0)
  have hgt : Fs.requiredBlocks offset data.length > .ofNat maxFileBlocks :=
    UInt32.lt_iff_toNat_lt.mpr hbig
  apply Fs.answered_eq_some.mpr
  rw [Fs.writeAttempt, Consistent.asU32_of_inodeNo hn.1, hc.readInode hn.1, Option.bind_eq_bind,
    Option.bind_some]
  dsimp only
  rw [if_neg hzero, if_pos hgt]

/-- Growing stops at once where there is no block. -/
theorem growLoop_refused {i : Inode} (h : fs.Refuses) {turns : ℕ} (hpos : turns ≠ 0) :
    Fs.growLoop turns fs.disk fs.sb i = some (.full, fs.disk, fs.sb) := by
  obtain ⟨k, rfl⟩ := Nat.exists_eq_succ_of_ne_zero hpos
  rw [Fs.growLoop, Fs.growStep, h]
  rfl

/-- Where the blocks do not suffice, `write` either panics for want of an indirect block or is
refused. -/
theorem writeAttempt_short (hc : Consistent fs) (hs : fs.Synced) (hr : Reserved fs.disk)
    (hn : fs.disk.Live n) (hl : (fs.disk.inode n).Linked) (hdata : data ≠ [])
    (hreq : (Fs.requiredBlocks offset data.length).toNat ≤ 20)
    (hroom : fs.room < fs.need n (Fs.requiredBlocks offset data.length).toNat)
    (now : ℕ → Int64) : ∃ reply fs', fs.writeAttempt n offset data now = some (reply, fs') := by
  have hp := hc.placed hn
  have hzero : data.length ≠ 0 := fun h0 => hdata (List.eq_nil_of_length_eq_zero h0)
  have hbig : ¬ Fs.requiredBlocks offset data.length > .ofNat maxFileBlocks := fun hgt =>
    absurd (UInt32.lt_iff_toNat_lt.mp hgt) (Nat.not_lt.mpr hreq)
  have h16 : (Fs.requiredBlocks offset data.length).toUInt16.toNat =
      (Fs.requiredBlocks offset data.length).toNat := by
    rw [UInt32.toNat_toUInt16]
    exact Nat.mod_eq_of_lt (by omega)
  rw [Fs.writeAttempt, Consistent.asU32_of_inodeNo hn.1, hc.readInode hn.1, Option.bind_eq_bind,
    Option.bind_some]
  dsimp only
  rw [if_neg hzero, if_neg hbig, h16]
  have hsmall : 0 < (Fs.requiredBlocks offset data.length).toNat -
      (fs.disk.inode n).blockCount.toNat → (fs.disk.inode n).blockCount.toNat +
        ((Fs.requiredBlocks offset data.length).toNat - (fs.disk.inode n).blockCount.toNat) ≤ 20 :=
    fun hpos => by omega
  obtain ⟨⟨growth, d₁, sb₁⟩, hgrow⟩ := growLoop_some hp hs (hc.owned.used hn) hc.owned.low hl hsmall
    (hr.roomy _)
  rw [hgrow, Option.bind_eq_bind, Option.bind_some]
  cases growLoop_outcome hp (hc.owned.used hn) hc.owned.low hsmall (hr.roomy _) hgrow with
  | full => exact ⟨_, _, rfl⟩
  | stuck => exact ⟨_, _, rfl⟩
  | grown hg =>
    have hsum := hg.footprint.room
    rw [hg.count] at hsum
    unfold Fs.need at hroom
    omega

end Refused

/-- A write past the limit is refused and changes nothing. One that succeeds gives the size that
integers give, and keeps the old bytes outside its range. -/
structure Limited (fs : Fs) (n : ℕ) (offset : Int64) (data : List UInt8) (now : ℕ → Int64) :
    Prop where
  refused : maxFileSize < offset.toInt.toNat + data.length →
    fs.write n offset data now = some (.error .EFBIG, fs)
  size : ∀ k fs', fs.write n offset data now = some (.written k, fs') →
    (fs'.disk.inode n).size.toNat =
      max (fs.disk.inode n).size.toNat (offset.toInt.toNat + data.length)
  kept : ∀ k fs', fs.write n offset data now = some (.written k, fs') →
    ∀ x < (fs.disk.inode n).size.toNat,
      x < offset.toInt.toNat ∨ offset.toInt.toNat + data.length ≤ x →
      (fs'.disk.inode n).content fs'.disk x = (fs.disk.inode n).content fs.disk x

/-- The limit holds exactly for the writes that end within it, and for those whose number of blocks
is still past it when cut to 32 bits. -/
theorem limited_iff {fs : Fs} {n : ℕ} {offset : Int64} {data : List UInt8} (hc : Consistent fs)
    (hr : Reserved fs.disk) (hn : fs.disk.Live n) (hm : (fs.disk.inode n).Mapped fs.disk)
    (h0 : 0 ≤ offset.toInt) (hdata : data ≠ []) (hlen : data.length < 2 ^ 64) (now : ℕ → Int64) :
    Limited fs n offset data now ↔
      offset.toInt.toNat + data.length ≤ maxFileBlocks * pageSize ∨
        maxFileBlocks < (offset.toInt.toNat + data.length + 509) % 2 ^ 64 / 510 % 2 ^ 32 := by
  have hwords : (offset.toInt.toNat + data.length + 509) % 2 ^ 64 / 510 % 2 ^ 32 =
      (Fs.requiredBlocks offset data.length).toNat := by
    rw [toNat_requiredBlocks hlen, toNat_offset h0]
  have hsafe := hr.stepSafe (.write n offset data)
  rw [hwords]
  constructor
  · intro h
    by_contra hcon
    obtain ⟨hpast, hsmall⟩ := not_or.mp hcon
    have hrefused := h.refused (Nat.lt_of_not_le hpast)
    cases writeAttempt_outcome hc hn hsafe (Fs.answered_eq_some.mp hrefused) with
    | tooBig _ hbig => exact hsmall hbig
  · rintro (hle | hbig)
    · have hle' : offset.toInt.toNat + data.length ≤ 10200 := hle
      have hwrote : ∀ k fs', fs.write n offset data now = some (.written k, fs') →
          ∃ new, Wrote fs fs' n offset data new := by
        intro k fs' h
        cases writeAttempt_outcome hc hn hsafe (Fs.answered_eq_some.mp h) with
        | empty hnil => exact absurd hnil hdata
        | wrote _ _ _ hw => exact ⟨_, hw⟩
      refine ⟨fun hgt => absurd hle (Nat.not_le.mpr hgt), fun k fs' h => ?_,
        fun k fs' h x _ hx => ?_⟩
      · obtain ⟨new, hw⟩ := hwrote k fs' h
        rw [hw.size, toNat_newSize h0 (by omega)]
      · obtain ⟨new, hw⟩ := hwrote k fs' h
        rw [hw.content hm, writePos_eq h0 (by omega), patch_of_outside _ hx]
    · have hrefused := write_tooBig hc hn hdata hbig now
      refine ⟨fun _ => hrefused, fun k fs' h => ?_, fun k fs' h => ?_⟩
      · rw [hrefused] at h
        cases h
      · rw [hrefused] at h
        cases h

/-- A file of a new image, where `free` blocks are free. -/
theorem exists_file (free : List ℕ) (hn : free.Nodup) (hr : ∀ b ∈ free, 32 ≤ b ∧ b < 89) :
    ∃ (fs : Fs) (n : ℕ), BlockSound fs ∧ TreeSound fs.disk ∧ fs.disk.Live n ∧
      fs.disk.inode n = createdInode n 0 ∧ fs.room = free.length := by
  obtain ⟨fs₀, fs, -, hs, ht, hroot, -, hb, hroom⟩ := exists_created free hn hr
  have hchange := Change.file hroot ⟨by decide, by decide, by decide⟩ (by decide) hb
  exact ⟨fs, 1000, hchange.blockSound hs, (hchange.treeChange hs.toConsistent).treeSound ht,
    (Holds.created hb).live, hb.inode, hroom⟩

theorem limited_first : ∃ (fs : Fs) (n : ℕ), Limited fs n 0 [1] fun _ => 0 := by
  obtain ⟨fs, n, hs, -, hn, -, -⟩ := exists_file [] List.nodup_nil (by simp)
  exact ⟨fs, n, (limited_iff hs.toConsistent hs.reserved hn (hs.mapped n hn) (by decide)
    (by decide) (by decide) _).mpr (Or.inl (by decide))⟩

/-- A write at 510 times 2 ^ 32 counts one block. -/
theorem not_limited_wrapped : ∃ (fs : Fs) (n : ℕ), BlockSound fs ∧ TreeSound fs.disk ∧
    fs.disk.Live n ∧ (fs.disk.inode n).isDir = false ∧
    ¬ Limited fs n (510 * 2 ^ 32) [1] fun _ => 0 := by
  obtain ⟨fs, n, hs, ht, hn, hinode, -⟩ := exists_file [] List.nodup_nil (by simp)
  refine ⟨fs, n, hs, ht, hn, by rw [hinode, isDir_createdInode], fun h => ?_⟩
  have hrefused := h.refused (by decide)
  cases writeAttempt_outcome hs.toConsistent hn (hs.reserved.stepSafe _)
    (Fs.answered_eq_some.mp hrefused) with
  | tooBig _ hbig => exact absurd hbig (by decide)

/-- The bitmap, the free count, all inode records and all blocks of inodes in use are the same. -/
structure Untraced (fs fs' : Fs) : Prop where
  bit : ∀ b < 20480, fs'.disk.bit b = fs.disk.bit b
  freeBlocks : fs'.sb.freeBlocks = fs.sb.freeBlocks
  inode : ∀ m, InodeNo m → fs'.disk.inode m = fs.disk.inode m
  block : ∀ m, ∀ b ∈ fs.disk.held m, fs'.disk.block b = fs.disk.block b

theorem Untraced.refl (fs : Fs) : Untraced fs fs :=
  ⟨fun _ _ => rfl, rfl, fun _ _ => rfl, fun _ _ _ => rfl⟩

section Failed

variable {fs : Fs} {n : ℕ} {offset : Int64} {data : List UInt8}

/-- Where no block is left the growing of a file fails before it has written anything. -/
theorem write_refused (hc : Consistent fs) (hs : fs.Synced) (hn : fs.disk.Live n)
    (hsafe : fs.StepSafe (.write n offset data)) (hroom : fs.room = 0) {now : ℕ → Int64}
    {errno : Errno} {fs' : Fs} (h : fs.write n offset data now = some (.error errno, fs')) :
    fs' = fs := by
  have hattempt := Fs.answered_eq_some.mp h
  cases writeAttempt_outcome hc hn hsafe hattempt with
  | tooBig _ _ => rfl
  | stalled hdata hreq hm _ _ _ =>
    have hrefuses := refuses_of_room hc.sized hroom hc.layout hs
    have hzero : data.length ≠ 0 := fun h0 => hdata (List.eq_nil_of_length_eq_zero h0)
    have hbig : ¬ Fs.requiredBlocks offset data.length > .ofNat maxFileBlocks := fun hgt =>
      absurd (UInt32.lt_iff_toNat_lt.mp hgt) (Nat.not_lt.mpr hreq)
    have hturns : (Fs.requiredBlocks offset data.length).toUInt16.toNat -
        (fs.disk.inode n).blockCount.toNat ≠ 0 := by
      rw [UInt32.toNat_toUInt16]
      omega
    rw [Fs.writeAttempt, Consistent.asU32_of_inodeNo hn.1, hc.readInode hn.1, Option.bind_eq_bind,
      Option.bind_some] at hattempt
    dsimp only at hattempt
    rw [if_neg hzero, if_neg hbig, growLoop_refused hrefuses hturns] at hattempt
    exact (congrArg Prod.snd (Option.some.inj hattempt)).symm

/-- The blocks that were taken before the space ran out stay taken. -/
theorem Stalled.not_untraced {fs' : Fs} {new : List ℕ} (h : Stalled fs fs' n new)
    (hnew : new ≠ []) : ¬ Untraced fs fs' := by
  intro hu
  obtain ⟨b, hb⟩ := List.exists_mem_of_ne_nil new hnew
  obtain ⟨-, hlt, hfree, -⟩ := h.footprint.fresh b hb
  have hbit := hu.bit b hlt
  rw [h.footprint.bit b hlt, hfree] at hbit
  simp [hb] at hbit

/-- A failing write leaves no trace exactly where it cannot take a block before it fails: there is
none, or enough of them, or it fails on the limit, or it panics on the indirect block instead. -/
theorem untraced_iff (hc : Consistent fs) (hs : fs.Synced) (hr : Reserved fs.disk)
    (hn : fs.disk.Live n) (hl : (fs.disk.inode n).Linked) (hlen : data.length < 2 ^ 64)
    (now : ℕ → Int64) :
    (∀ errno fs', fs.write n offset data now = some (.error errno, fs') → Untraced fs fs') ↔
      data = [] ∨ maxFileBlocks < blocksToEnd offset data.length ∨ fs.room = 0 ∨
        fs.need n (blocksToEnd offset data.length) ≤ fs.room ∨
        (fs.disk.inode n).blockCount.toNat ≤ directBlockCount ∧
          directBlockCount < blocksToEnd offset data.length ∧
          fs.room + (fs.disk.inode n).blockCount.toNat = directBlockCount + 1 := by
  have hwords : blocksToEnd offset data.length = (Fs.requiredBlocks offset data.length).toNat :=
    (toNat_requiredBlocks hlen).symm
  have hsafe := hr.stepSafe (.write n offset data)
  simp only [hwords, maxFileBlocks, directBlockCount]
  constructor
  · intro h
    by_contra hcon
    obtain ⟨hdata, hcon⟩ := not_or.mp hcon
    obtain ⟨hsmall, hcon⟩ := not_or.mp hcon
    obtain ⟨hroom, hcon⟩ := not_or.mp hcon
    obtain ⟨hneed, hstuck⟩ := not_or.mp hcon
    obtain ⟨reply, fs', hwrite⟩ := writeAttempt_short hc hs hr hn hl hdata (Nat.le_of_not_lt hsmall)
      (Nat.lt_of_not_le hneed) now
    cases writeAttempt_bySpace hc hs hn hl hsafe hdata (Nat.le_of_not_lt hsmall) hwrite with
    | @stalled fs' new _ _ hcount hst =>
      refine hst.not_untraced (fun hnil => hroom ?_) (h _ _ (Fs.answered_eq_some.mpr hwrite))
      rw [← hcount, hnil, List.length_nil]
    | stuck h10 hlt heq _ _ => exact hstuck ⟨h10, hlt, by omega⟩
    | lost hle _ => exact hneed hle
    | wrote hle _ _ => exact hneed hle
  · intro h errno fs' hwrite
    have hattempt := Fs.answered_eq_some.mp hwrite
    by_cases hdata : data = []
    · cases writeAttempt_outcome hc hn hsafe hattempt with
      | tooBig hne _ => exact absurd hdata hne
      | stalled hne _ _ _ _ _ => exact absurd hdata hne
    · by_cases hroom : fs.room = 0
      · rw [write_refused hc hs hn hsafe hroom hwrite]
        exact .refl fs
      · rcases Nat.lt_or_ge 20 (Fs.requiredBlocks offset data.length).toNat with hbig | hsmall
        · rw [write_tooBig hc hn hdata hbig now] at hwrite
          obtain ⟨-, rfl⟩ := Prod.mk.inj (Option.some.inj hwrite)
          exact .refl fs
        · cases writeAttempt_bySpace hc hs hn hl hsafe hdata hsmall hattempt with
          | stalled hlt hnot _ _ =>
            exfalso
            rcases h with h | h | h | h | ⟨h10, hgt, hsum⟩
            · exact hdata h
            · omega
            · exact hroom h
            · omega
            · exact hnot ⟨h10, hgt, by omega⟩

end Failed

theorem untraced_no_room : ∃ (fs : Fs) (n : ℕ), ∀ errno fs',
    fs.write n 0 [1] (fun _ => 0) = some (.error errno, fs') → Untraced fs fs' := by
  obtain ⟨fs, n, hs, -, hn, -, hroom⟩ := exists_file [] List.nodup_nil (by simp)
  exact ⟨fs, n, (untraced_iff hs.toConsistent hs.synced hs.reserved hn (hs.mapped n hn).linked
    (by decide) _).mpr (Or.inr (Or.inr (Or.inl hroom)))⟩

/-- Where one block is free and two are needed, the one is taken and lost. -/
theorem traced_one_block : ∃ (fs fs' : Fs) (n : ℕ), BlockSound fs ∧ TreeSound fs.disk ∧
    fs.disk.Live n ∧ (fs.disk.inode n).isDir = false ∧
    fs.write n 510 [1] (fun _ => 0) = some (.error .ENOSPC, fs') ∧ ¬ Untraced fs fs' := by
  obtain ⟨fs, n, hs, ht, hn, hinode, hroom⟩ := exists_file [32] (by decide) (by decide)
  have hreq : (Fs.requiredBlocks 510 [(1 : UInt8)].length).toNat = 2 := by decide
  have hcount : (fs.disk.inode n).blockCount.toNat = 0 := by
    rw [hinode]
    rfl
  have hneed : fs.need n 2 = 2 := by
    rw [Fs.need_eq, hcount]
    rfl
  have hone : fs.room = 1 := hroom
  obtain ⟨reply, fs', hwrite⟩ := writeAttempt_short hs.toConsistent hs.synced hs.reserved hn
    (hs.mapped n hn).linked (show [(1 : UInt8)] ≠ [] by decide) (by rw [hreq]; decide)
    (by rw [hreq, hneed, hone]; decide) fun _ => 0
  have hbySpace := writeAttempt_bySpace hs.toConsistent hs.synced hn (hs.mapped n hn).linked
    (hs.reserved.stepSafe _) (show [(1 : UInt8)] ≠ [] by decide) (by rw [hreq]; decide) hwrite
  rw [hreq] at hbySpace
  cases hbySpace with
  | @stalled _ new _ _ hlen hst =>
    refine ⟨fs, fs', n, hs, ht, hn, by rw [hinode, isDir_createdInode],
      Fs.answered_eq_some.mpr hwrite, hst.not_untraced fun hnil => ?_⟩
    rw [hnil, hone] at hlen
    cases hlen
  | stuck _ hlt _ _ _ => exact absurd hlt (by decide)
  | lost hle _ =>
    rw [hneed, hone] at hle
    exact absurd hle (by decide)
  | wrote hle _ _ =>
    rw [hneed, hone] at hle
    exact absurd hle (by decide)

/-- `write` succeeds when the free blocks suffice for the `required` ones, and is refused when they
do not. -/
structure AnswersBySpace (fs : Fs) (n : ℕ) (offset : Int64) (data : List UInt8) (required : ℕ)
    (now : ℕ → Int64) : Prop where
  written : fs.need n required ≤ fs.sb.freeBlocks.toNat →
    ∃ fs', fs.write n offset data now = some (.written data.length, fs')
  refused : fs.sb.freeBlocks.toNat < fs.need n required →
    ∃ fs', fs.write n offset data now = some (.error .ENOSPC, fs')

section Space

variable {fs : Fs} {n : ℕ} {offset : Int64} {data : List UInt8}

theorem toNat_requiredBlocks_of_le (h0 : 0 ≤ offset.toInt)
    (hreq : (offset.toInt.toNat + data.length + (pageSize - 1)) / pageSize ≤ maxFileBlocks) :
    (Fs.requiredBlocks offset data.length).toNat =
      (offset.toInt.toNat + data.length + (pageSize - 1)) / pageSize := by
  simp only [pageSize, blockSize, maxFileBlocks, Nat.reduceSub] at hreq ⊢
  have hend : offset.toInt.toNat + data.length ≤ 10200 := by omega
  rw [toNat_requiredBlocks (by omega), toNat_offset h0,
    Nat.mod_eq_of_lt (show offset.toInt.toNat + data.length + 509 < 2 ^ 64 by omega)]
  exact Nat.mod_eq_of_lt (by omega)

/-- `write` answers by the space unless growing it past ten blocks takes the last free block for
data and leaves none for the indirect block. -/
theorem answersBySpace_iff (hc : Consistent fs) (hs : fs.Synced)
    (hcount : fs.sb.freeBlocks.toNat =
      ((Finset.range 20480).filter fun b => fs.disk.bit b = false).card)
    (hr : Reserved fs.disk) (hn : fs.disk.Live n) (hm : (fs.disk.inode n).Mapped fs.disk)
    (h0 : 0 ≤ offset.toInt) (hdata : data ≠ [])
    (hreq : (offset.toInt.toNat + data.length + (pageSize - 1)) / pageSize ≤ maxFileBlocks)
    (now : ℕ → Int64) :
    AnswersBySpace fs n offset data ((offset.toInt.toNat + data.length + (pageSize - 1)) / pageSize)
        now ↔
      ¬ ((fs.disk.inode n).blockCount.toNat ≤ directBlockCount ∧
        directBlockCount < (offset.toInt.toNat + data.length + (pageSize - 1)) / pageSize ∧
        fs.sb.freeBlocks.toNat + (fs.disk.inode n).blockCount.toNat = directBlockCount + 1) := by
  have hwords := toNat_requiredBlocks_of_le h0 hreq
  have hroom := room_of_counted hcount
  rw [← hwords] at hreq ⊢
  rw [← hroom]
  have hsafe := hr.stepSafe (.write n offset data)
  have hend : offset.toInt.toNat + data.length ≤ 10200 := by
    rw [hwords] at hreq
    simp only [pageSize, blockSize, maxFileBlocks] at hreq
    omega
  have hlen : data.length % 2 ^ 32 = data.length := Nat.mod_eq_of_lt (by omega)
  have hrange : Fs.writePos offset + data.length ≤ 510 * 265 := by
    rw [writePos_eq h0 (by omega)]
    omega
  simp only [directBlockCount]
  constructor
  · rintro h ⟨h10, hlt, hsum⟩
    have hshort : fs.room < fs.need n (Fs.requiredBlocks offset data.length).toNat := by
      rw [Fs.need_eq, if_pos ⟨h10, hlt⟩]
      omega
    obtain ⟨fs', hwrite⟩ := h.refused (hroom ▸ hshort)
    cases writeAttempt_bySpace hc hs hn hm.linked hsafe hdata hreq
      (Fs.answered_eq_some.mp hwrite) with
    | stalled _ hnot _ _ => exact hnot ⟨h10, hlt, by omega⟩
  · intro hnot
    obtain ⟨reply, fs', hwrite⟩ := writeAttempt_some hc hs hn hm hrange hsafe now
    cases writeAttempt_bySpace hc hs hn hm.linked hsafe hdata hreq hwrite with
    | stalled hshort _ _ _ =>
      exact ⟨fun hle => absurd hle (by omega), fun _ => ⟨fs', Fs.answered_eq_some.mpr hwrite⟩⟩
    | stuck h10 hlt heq _ _ => exact absurd ⟨h10, hlt, by omega⟩ hnot
    | lost _ hlost => exact absurd (hlost hm) (Nat.not_lt.mpr hrange)
    | wrote hle _ _ =>
      rw [hlen] at hwrite
      exact ⟨fun _ => ⟨fs', Fs.answered_eq_some.mpr hwrite⟩, fun hlt => absurd hlt (by omega)⟩

end Space

theorem answersBySpace_first : ∃ (fs : Fs) (n : ℕ),
    AnswersBySpace fs n 0 [1] 1 fun _ => 0 := by
  obtain ⟨fs, n, hs, -, hn, -, -⟩ := exists_file [] List.nodup_nil (by simp)
  exact ⟨fs, n, (answersBySpace_iff hs.toConsistent hs.synced hs.counted hs.reserved hn
    (hs.mapped n hn) (by decide) (by decide) (by decide) _).mpr fun h => absurd h.2.1 (by decide)⟩

/-- With eleven free blocks a new file is to grow to eleven blocks. -/
theorem not_answersBySpace_eleven : ∃ (fs : Fs) (n : ℕ), BlockSound fs ∧ TreeSound fs.disk ∧
    fs.disk.Live n ∧ (fs.disk.inode n).isDir = false ∧ fs.sb.freeBlocks.toNat = 11 ∧
    fs.write n 5100 [1] (fun _ => 0) = none ∧ ¬ AnswersBySpace fs n 5100 [1] 11 fun _ => 0 := by
  obtain ⟨fs, n, hs, ht, hn, hinode, hroom⟩ := exists_file
    [32, 33, 34, 35, 36, 37, 38, 39, 40, 41, 42] (by decide) (by decide)
  have hfree : fs.sb.freeBlocks.toNat = 11 := (room_of_counted hs.counted).symm.trans hroom
  have hcount : (fs.disk.inode n).blockCount.toNat = 0 := by
    rw [hinode]
    rfl
  have hneed : fs.need n 11 = 12 := by
    rw [Fs.need_eq, hcount]
    rfl
  have hpanic : fs.write n 5100 [1] (fun _ => 0) = none := by
    cases hwrite : fs.write n 5100 [1] fun _ => 0 with
    | none => rfl
    | some r =>
      obtain ⟨reply, fs'⟩ := r
      have hbySpace := writeAttempt_bySpace hs.toConsistent hs.synced hn (hs.mapped n hn).linked
        (hs.reserved.stepSafe _) (by decide) (by decide) (Fs.answered_eq_some.mp hwrite)
      rw [show (Fs.requiredBlocks 5100 [(1 : UInt8)].length).toNat = 11 by decide] at hbySpace
      cases hbySpace with
      | stalled _ hnot _ _ =>
        rw [hcount] at hnot
        exact absurd ⟨by decide, by decide, hroom⟩ hnot
      | wrote hle _ _ =>
        rw [hneed, hroom] at hle
        exact absurd hle (by decide)
  refine ⟨fs, n, hs, ht, hn, by rw [hinode, isDir_createdInode], hfree, hpanic, fun h => ?_⟩
  obtain ⟨fs', hwrite⟩ := h.refused (by rw [hneed, hfree]; decide)
  rw [hpanic] at hwrite
  cases hwrite

end SimpleFS
