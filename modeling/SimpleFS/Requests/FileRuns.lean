import SimpleFS.Requests.Space

/-! Runs of creations and writes: each file holds the overlay of the writes to it. -/
namespace SimpleFS
open Overlay

section Offsets

variable {offset : Int64}

/-- An offset within 32 bits is where the writing begins. -/
theorem writePos_eq (h : 0 ≤ offset.toInt) (hlt : offset.toInt.toNat < 2 ^ 32) :
    Fs.writePos offset = offset.toInt.toNat := by
  rw [Fs.writePos, UInt64.toNat_toUInt32, toNat_offset h]
  simp only [pageSize, blockSize]
  omega

theorem toNat_newSize (h : 0 ≤ offset.toInt) {len : ℕ} (hlt : offset.toInt.toNat + len < 2 ^ 32)
    (size : UInt32) :
    (Fs.newSize offset len size).toNat = max size.toNat (offset.toInt.toNat + len) := by
  have hlen : (UInt64.ofNat len).toNat = len := UInt64.toNat_ofNat_of_lt' (by
    show len < 2 ^ 64
    omega)
  have hend : (offset.toUInt64 + .ofNat len).toNat = offset.toInt.toNat + len := by
    rw [UInt64.toNat_add, hlen, toNat_offset h]
    omega
  have hsize : size.toUInt64.toNat = size.toNat := UInt32.toNat_toUInt64 size
  unfold Fs.newSize
  split_ifs with hgt
  · have hgt := UInt64.lt_iff_toNat_lt.mp hgt
    rw [UInt64.toNat_toUInt32, hend]
    omega
  · have hle := UInt64.le_iff_toNat_le.mp (UInt64.not_lt.mp hgt)
    omega

end Offsets

/-- The limit of a file, `MAX_FILE_BLOCKS * PAGE_SIZE`. -/
abbrev maxFileSize : ℕ := maxFileBlocks * pageSize

/-- Creations of files, and writes to them that stay within the limit, in any order. The run keeps
the files and the successful writes to each. -/
inductive FileRun (start : Fs) : Fs → List ℕ → (ℕ → List (ℕ × List UInt8)) → Prop
  | start : FileRun start start [] fun _ => []
  | created {fs fs' files log p name now ttl attr generation n flags} :
      FileRun start fs files log → fs.disk.IsDirectory p →
      fs.create p name now = some (.created ttl attr generation n flags, fs') →
      FileRun start fs' (n :: files) (Function.update log n [])
  | refused {fs fs' files log p name now errno} :
      FileRun start fs files log → fs.disk.IsDirectory p →
      fs.create p name now = some (.error errno, fs') → FileRun start fs' files log
  | written {fs fs' files log n offset data now size} :
      FileRun start fs files log → n ∈ files → 0 ≤ offset.toInt → data ≠ [] →
      offset.toInt.toNat + data.length ≤ maxFileSize →
      fs.write n offset data now = some (.written size, fs') →
      FileRun start fs' files (Function.update log n (log n ++ [(offset.toInt.toNat, data)]))
  | failed {fs fs' files log n offset data now errno} :
      FileRun start fs files log → n ∈ files → 0 ≤ offset.toInt → data ≠ [] →
      offset.toInt.toNat + data.length ≤ maxFileSize →
      fs.write n offset data now = some (.error errno, fs') → FileRun start fs' files log

/-- File `n` holds the overlay of `ws`. -/
structure Holds (d : Disk) (n : ℕ) (ws : List (ℕ × List UInt8)) : Prop where
  live : d.Live n
  file : (d.inode n).isDir = false
  mapped : (d.inode n).Mapped d
  content : (d.inode n).content d = overlay 0 ws
  size : (d.inode n).size.toNat = extent ws
  fits : (d.inode n).size.toNat ≤ 510 * (d.inode n).blockCount.toNat

namespace Holds

variable {fs fs' : Fs} {n : ℕ} {ws : List (ℕ × List UInt8)}

theorem untouched (h : Holds fs.disk n ws) (hu : Untouched fs.disk fs'.disk n) :
    Holds fs'.disk n ws where
  live := hu.live.mpr h.live
  file := by rw [hu.inode, h.file]
  mapped := hu.mapped h.mapped
  content := (hu.content h.mapped).trans h.content
  size := by rw [hu.inode, h.size]
  fits := by rw [hu.inode]; exact h.fits

theorem wrote (h : Holds fs.disk n ws) {offset : Int64} {data : List UInt8} {new : List ℕ}
    (hw : Wrote fs fs' n offset data new) (h0 : 0 ≤ offset.toInt)
    (hlimit : offset.toInt.toNat + data.length ≤ maxFileSize) :
    Holds fs'.disk n (ws ++ [(offset.toInt.toNat, data)]) := by
  simp only [maxFileSize, maxFileBlocks, pageSize, blockSize] at hlimit
  have hpos := writePos_eq h0 (by omega)
  have hsize : (fs'.disk.inode n).size.toNat =
      max (fs.disk.inode n).size.toNat (offset.toInt.toNat + data.length) := by
    rw [hw.size, toNat_newSize h0 (by omega)]
  have hfits := hw.fits
  have hcount := hw.blockCount
  have hold := h.fits
  rw [hpos] at hfits
  refine ⟨⟨h.live.1, by rw [hw.nlink]; exact h.live.2⟩, ?_, hw.mapped h.mapped, ?_, ?_, ?_⟩
  · rw [Inode.isDir, hw.mode]
    exact h.file
  · rw [hw.content h.mapped, hpos, h.content, overlay_snoc]
  · rw [hsize, h.size, extent_snoc]
  · omega

theorem stalled (h : Holds fs.disk n ws) {new : List ℕ} (hs : Stalled fs fs' n new) :
    Holds fs'.disk n ws where
  live := ⟨h.live.1, by rw [hs.inode]; exact h.live.2⟩
  file := by rw [hs.inode, h.file]
  mapped := by rw [hs.inode]; exact hs.mapped h.mapped
  content := by rw [hs.inode, hs.content h.mapped, h.content]
  size := by rw [hs.inode, h.size]
  fits := by rw [hs.inode]; exact h.fits

theorem created {p : ℕ} {e : DirEntry} {now : Int64} {grown : List ℕ}
    (h : Born fs fs' p n e (createdInode n now) [] [] grown) : Holds fs'.disk n [] where
  live := ⟨h.inodeNo, by rw [h.inode]; exact nlink_createdInode _ _⟩
  file := by rw [h.inode, isDir_createdInode]
  mapped := by rw [h.inode]; exact mapped_createdInode _ _ _
  content := by
    rw [h.inode]
    funext x
    exact if_neg (Nat.not_lt_zero x)
  size := by rw [h.inode]; rfl
  fits := by rw [h.inode]; exact Nat.zero_le _

/-- What `read` answers. -/
theorem read (h : Holds fs.disk n ws) (hc : Consistent fs) {offset : Int64}
    (h0 : 0 ≤ offset.toInt) (size : UInt32) :
    fs.read n offset size = some (.data (window (overlay 0 ws) offset.toInt.toNat
      (min size.toNat (extent ws - offset.toInt.toNat))), fs) := by
  rw [Fs.read_eq hc h.live h.mapped h.fits h0, h.content, h.size]

end Holds

/-- What holds along a run. -/
structure RunInvariant (fs : Fs) (files : List ℕ) (log : ℕ → List (ℕ × List UInt8)) : Prop where
  consistent : Consistent fs
  reserved : Reserved fs.disk
  holds : ∀ n ∈ files, Holds fs.disk n (log n)

namespace RunInvariant

variable {fs fs' : Fs} {files : List ℕ} {log : ℕ → List (ℕ × List UInt8)}

/-- A request that touches no file of the run but `n`. -/
theorem step (h : RunInvariant fs files log) (hc : Consistent fs') {recs own new freed : List ℕ}
    (ht : Touched fs fs' recs own new freed) {files' : List ℕ}
    {log' : ℕ → List (ℕ × List UInt8)}
    (hfiles : ∀ m ∈ files', Holds fs'.disk m (log' m) ∨
      m ∈ files ∧ m ∉ recs ∧ log' m = log m) : RunInvariant fs' files' log' where
  consistent := hc
  reserved := ht.reserved h.consistent h.reserved
  holds m hm := by
    rcases hfiles m hm with hh | ⟨hold, hrecs, hlog⟩
    · exact hh
    · have hh := h.holds m hold
      rw [hlog]
      exact hh.untouched (ht.untouched h.consistent hh.live hrecs)

/-- A file of the run is not a directory. -/
theorem ne_directory (h : RunInvariant fs files log) {p m : ℕ} (hp : fs.disk.IsDirectory p)
    (hm : m ∈ files) : m ≠ p := by
  rintro rfl
  have hfile := (h.holds m hm).file
  rw [hp.2] at hfile
  cases hfile

theorem create (h : RunInvariant fs files log) {p : ℕ} {name : ByteArray} {now : ℕ → Int64}
    {reply : Reply} (hp : fs.disk.IsDirectory p) (ha : fs.create p name now = some (reply, fs')) :
    (∀ ttl attr generation n flags, reply = .created ttl attr generation n flags →
      RunInvariant fs' (n :: files) (Function.update log n [])) ∧
    ∀ errno, reply = .error errno → RunInvariant fs' files log := by
  have hc := h.consistent
  cases create_outcome hc hp.1 (h.reserved.stepSafe _) ha with
  | found _ => exact ⟨by rintro _ _ _ _ _ ⟨⟩, fun _ _ => h⟩
  | noInode _ _ => exact ⟨by rintro _ _ _ _ _ ⟨⟩, fun _ _ => h⟩
  | orphan _ _ _ hunused _ _ hs =>
    refine ⟨by rintro _ _ _ _ _ ⟨⟩, fun _ _ => h.step hs.consistent
      (hs.touched (mapped_createdInode _ _ _)) fun m hm => Or.inr ⟨hm, fun hmem => ?_, rfl⟩⟩
    rw [List.mem_singleton.mp hmem] at hm
    exact hunused (h.holds _ hm).live
  | @created _ n _ _ _ _ _ hb =>
    refine ⟨?_, by rintro _ ⟨⟩⟩
    rintro _ _ _ _ _ ⟨⟩
    refine h.step hb.consistent (hb.touched hc hp.1 (mapped_createdInode _ _ _)) fun m hm => ?_
    by_cases hmn : m = n
    · left
      rw [hmn, Function.update_self]
      exact .created hb
    · have hold := (List.mem_cons.mp hm).resolve_left hmn
      exact Or.inr ⟨hold, by simp [hmn, h.ne_directory hp hold], Function.update_of_ne hmn _ _⟩

theorem write (h : RunInvariant fs files log) {n : ℕ} {offset : Int64} {data : List UInt8}
    {now : ℕ → Int64} {reply : Reply} (hn : n ∈ files) (h0 : 0 ≤ offset.toInt) (hdata : data ≠ [])
    (hlimit : offset.toInt.toNat + data.length ≤ maxFileSize)
    (ha : fs.write n offset data now = some (reply, fs')) :
    (∀ size, reply = .written size → RunInvariant fs' files
      (Function.update log n (log n ++ [(offset.toInt.toNat, data)]))) ∧
    ∀ errno, reply = .error errno → RunInvariant fs' files log := by
  have hc := h.consistent
  have hh := h.holds n hn
  cases writeAttempt_outcome hc hh.live (h.reserved.stepSafe _) (Fs.answered_eq_some.mp ha) with
  | empty hnil => exact absurd hnil hdata
  | tooBig _ _ => exact ⟨by rintro _ ⟨⟩, fun _ _ => h⟩
  | stalled _ _ _ _ hs _ =>
    refine ⟨by rintro _ ⟨⟩, fun _ _ => h.step hs.consistent (hs.touched hc hh.live)
      fun m hm => ?_⟩
    by_cases hmn : m = n
    · rw [hmn]
      exact Or.inl (hh.stalled hs)
    · exact Or.inr ⟨hm, by simpa using hmn, rfl⟩
  | wrote _ _ _ hw =>
    refine ⟨fun _ _ => ?_, by rintro _ ⟨⟩⟩
    refine h.step hw.consistent (hw.touched hc hh.live) fun m hm => ?_
    by_cases hmn : m = n
    · left
      rw [hmn, Function.update_self]
      exact hh.wrote hw h0 hlimit
    · exact Or.inr ⟨hm, by simpa using hmn, Function.update_of_ne hmn _ _⟩

end RunInvariant

theorem FileRun.invariant {start fs : Fs} {files : List ℕ} {log : ℕ → List (ℕ × List UInt8)}
    (hc : Consistent start) (hr : Reserved start.disk) (h : FileRun start fs files log) :
    RunInvariant fs files log := by
  induction h with
  | start => exact ⟨hc, hr, by simp⟩
  | created _ hp ha ih => exact (ih.create hp ha).1 _ _ _ _ _ rfl
  | refused _ hp ha ih => exact (ih.create hp ha).2 _ rfl
  | written _ hn h0 hdata hlimit ha ih => exact (ih.write hn h0 hdata hlimit ha).1 _ rfl
  | failed _ hn h0 hdata hlimit ha ih => exact (ih.write hn h0 hdata hlimit ha).2 _ rfl

/-- A refused write changes no read of a file whose size lies within its blocks. -/
theorem RunInvariant.read_of_error {fs fs' : Fs} {files : List ℕ}
    {log : ℕ → List (ℕ × List UInt8)} (h : RunInvariant fs files log) {n : ℕ} {offset : Int64}
    {data : List UInt8} {now : ℕ → Int64} {errno : Errno} (hn : n ∈ files) (h0 : 0 ≤ offset.toInt)
    (hdata : data ≠ []) (hlimit : offset.toInt.toNat + data.length ≤ maxFileSize)
    (ha : fs.write n offset data now = some (.error errno, fs')) {m : ℕ} (hm : fs.disk.Live m)
    (hsize : (fs.disk.inode m).size.toNat ≤ 510 * (fs.disk.inode m).blockCount.toNat)
    {pos : Int64} (hpos : 0 ≤ pos.toInt) (size : UInt32) :
    (fs'.read m pos size).map Prod.fst = (fs.read m pos size).map Prod.fst := by
  have h' := (h.write hn h0 hdata hlimit ha).2 _ rfl
  have hh := h.holds n hn
  by_cases hmn : m = n
  · rw [hmn, (h'.holds n hn).read h'.consistent hpos, hh.read h.consistent hpos]
    rfl
  · refine Fs.read_congr h.consistent h'.consistent hm ?_ hsize hpos size
    cases writeAttempt_outcome h.consistent hh.live (h.reserved.stepSafe _)
      (Fs.answered_eq_some.mp ha) with
    | tooBig _ _ => exact ⟨rfl, fun _ _ => rfl⟩
    | stalled _ _ _ _ hs _ =>
      exact (hs.touched h.consistent hh.live).untouched h.consistent hm (by simpa using hmn)

/-- After any run of creations and writes each file reads as the overlay of the successful writes
to it, up to the end of the furthest one. A write for which there is no space changes no read of
a file of the run, nor of any other file whose size lies within its blocks. -/
theorem read_overlay {start fs : Fs} {files : List ℕ} {log : ℕ → List (ℕ × List UInt8)}
    (hc : Consistent start) (hr : Reserved start.disk) (h : FileRun start fs files log) :
    (∀ n ∈ files, ∀ (offset : Int64) (size : UInt32), 0 ≤ offset.toInt →
      fs.read n offset size = some (.data (window (overlay 0 (log n)) offset.toInt.toNat
        (min size.toNat (extent (log n) - offset.toInt.toNat))), fs)) ∧
    ∀ n ∈ files, ∀ (offset : Int64) (data : List UInt8) (now : ℕ → Int64) (fs' : Fs),
      0 ≤ offset.toInt → data ≠ [] → offset.toInt.toNat + data.length ≤ maxFileSize →
      fs.write n offset data now = some (.error .ENOSPC, fs') →
      ∀ m, m ∈ files ∨ fs.disk.Live m ∧
          (fs.disk.inode m).size.toNat ≤ 510 * (fs.disk.inode m).blockCount.toNat →
        ∀ (pos : Int64) (size : UInt32), 0 ≤ pos.toInt →
          (fs'.read m pos size).map Prod.fst = (fs.read m pos size).map Prod.fst := by
  have hinv := h.invariant hc hr
  refine ⟨fun n hn offset size h0 => (hinv.holds n hn).read hinv.consistent h0 size, ?_⟩
  intro n hn offset data now fs' h0 hdata hlimit ha m hm pos size hpos
  rcases hm with hm | ⟨hm, hsize⟩
  · exact hinv.read_of_error hn h0 hdata hlimit ha (hinv.holds m hm).live (hinv.holds m hm).fits
      hpos size
  · exact hinv.read_of_error hn h0 hdata hlimit ha hm hsize hpos size

/-- A write to a new file, read back. -/
theorem read_overlay_three : ∃ fs : Fs, fs.read 1000 0 10 = some (.data [0, 0, 7], fs) := by
  obtain ⟨fs₀, fs₁, attr, hs₀, -, hroot, hcreate, hb, hroom⟩ :=
    exists_created [32] (by decide) (by decide)
  have hs₁ := (Change.file hroot ⟨by decide, by decide, by decide⟩ (by decide) hb).blockSound hs₀
  have hn : fs₁.disk.Live 1000 := (Holds.created hb).live
  have hcount : (fs₁.disk.inode 1000).blockCount.toNat = 0 := by
    rw [hb.inode]
    rfl
  have hneed : fs₁.need 1000 (Fs.requiredBlocks 2 1).toNat = 1 := by
    rw [Fs.need_eq, hcount]
    rfl
  obtain ⟨fs₂, new, hwrite, -, -⟩ := write_written hs₁.toConsistent hs₁.synced
    hs₁.reserved hn (hs₁.mapped 1000 hn) (show ([7] : List UInt8) ≠ [] by decide)
    (show (Fs.requiredBlocks 2 1).toNat ≤ 20 by decide) (by decide)
    (by rw [List.length_singleton, hneed, hroom]; rfl) fun _ => 0
  have hrun := ((@FileRun.start fs₀).created hroot hcreate).written (List.mem_cons_self)
    (by decide) (by decide) (by decide) hwrite
  have hread := (read_overlay hs₀.toConsistent hs₀.reserved hrun).1 1000 List.mem_cons_self 0 10
    (by decide)
  rw [Function.update_self, Function.update_self] at hread
  exact ⟨fs₂, hread.trans (congrArg (fun bytes => some (Reply.data bytes, fs₂)) (by decide))⟩

end SimpleFS
