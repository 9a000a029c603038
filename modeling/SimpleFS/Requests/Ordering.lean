import SimpleFS.Requests.Returns
import SimpleFS.Requests.Trails

/-! The order of the writes of each request. All of them pass through disks that can be mounted
again, except a removal that has blocks to free. -/
namespace SimpleFS
open Bitmap

section Trails

variable {fs fs' : Fs} {p n : ℕ} {now : ℕ → Int64}

/-- After a new inode was stored, the entry is added. -/
private theorem Stocked.trail {fs₁ : Fs} {node : Inode} {slots : List DirEntry} {blocks : List ℕ}
    (hs : Stocked fs fs₁ n node slots blocks) (hc : Consistent fs) (hp : fs.disk.Live p)
    (hne : p ≠ n) (hl : Layout (SuperBlock.fromBytes (fs₁.disk.block 0)))
    (hroom : fs₁.disk.Roomy (dirAsks fs.disk (fs.disk.inode p))) {name : String} {child : ℕ}
    {isDir : Bool} {time : Int64} {r : Except String Unit} {d' : Disk} {sb' : SuperBlock}
    {dir' : Inode}
    (h : dirAddEntry fs₁.disk fs₁.sb (fs.disk.inode p) name child isDir time =
      some (r, d', sb', dir')) : fs₁.disk.Trail Disk.Recoverable d' := by
  have hu := hs.untouched hc hp hne
  have htable := hu.table
  rw [hu.inode] at htable
  rw [← dirAsks_congr htable, ← hu.inode] at hroom
  rw [← hu.inode] at h
  exact dirAddEntry_trail hs.consistent hl (hu.live.mpr hp) hroom h

theorem create_trail (hc : Consistent fs) (hl : Layout (SuperBlock.fromBytes (fs.disk.block 0)))
    (hp : fs.disk.Live p) {name : ByteArray} (hsafe : fs.StepSafe (.create p name)) {reply : Reply}
    (h : fs.create p name now = some (reply, fs')) : fs.disk.Trail Disk.Recoverable fs'.disk := by
  have hstart := Disk.Trail.refl (hc.recoverable hl)
  have h32 := Consistent.asU32_of_inodeNo hp.1
  rw [Fs.create, h32, hc.readInode hp.1, Option.bind_eq_bind, Option.bind_some] at h
  obtain ⟨found, hfind, h⟩ := Option.bind_eq_some_iff.mp h
  cases found with
  | some slot =>
    simp only [Option.isSome_some, if_true, Option.some.injEq, Prod.mk.injEq] at h
    exact h.2 ▸ hstart
  | none =>
    simp only [Option.isSome_none, Bool.false_eq_true, if_false] at h
    obtain ⟨number, hnumber, h⟩ := Option.bind_eq_some_iff.mp h
    rcases findInodeNo_cases hc (fun n h₁ h₂ => Or.inr (Or.inr ⟨h₁, h₂⟩)) (by decide) hnumber with
      ⟨rfl, -⟩ | ⟨n, rfl, hlo, hhi, hunused, -⟩
    · simp only [Option.some.injEq, Prod.mk.injEq] at h
      exact h.2 ▸ hstart
    · have hn : InodeNo n := Or.inr (Or.inr ⟨hlo, hhi⟩)
      have hs := Stocked.file hc hn (now 0)
      have hroom : fs.disk.Roomy (dirAsks fs.disk (fs.disk.inode p)) := by
        have hasks : fs.asks (.create p name) = dirAsks fs.disk (fs.disk.inode p) := by
          simp only [Fs.asks, h32]
          rw [show dirFind fs.disk (fs.disk.inode p) (Fs.nameOr "unknown" name) = some none from hfind,
            hnumber]
        rwa [Fs.StepSafe, hasks] at hsafe
      obtain ⟨d₁, hput, h⟩ := Option.bind_eq_some_iff.mp h
      obtain rfl := hc.sized.eq_of_writeInode hc.layout (i := createdInode n (now 0)) (by
        rw [show (createdInode n (now 0)).inodeNo.toNat = n from toNat_ofNat_of_inodeNo hn]
        exact hn.recordBlock_lt) hput
      have hstored := hstart.putInode hs.consistent
      obtain ⟨⟨result, d₂, sb₂, dir'⟩, hadd, h⟩ := Option.bind_eq_some_iff.mp h
      have hadded := hstored.trans (hs.trail hc hp (fun heq => hunused (heq ▸ hp))
        hstored.last.layout (hs.footprint.roomy hroom) hadd)
      cases result with
      | error e =>
        simp only [Option.some.injEq, Prod.mk.injEq] at h
        exact h.2 ▸ hadded
      | ok u =>
        simp only [Option.some.injEq, Prod.mk.injEq] at h
        exact h.2 ▸ hadded

theorem mkdirAttempt_trail (hc : Consistent fs)
    (hl : Layout (SuperBlock.fromBytes (fs.disk.block 0))) (hp : fs.disk.Live p) {name : ByteArray}
    (hsafe : fs.StepSafe (.mkdir p name)) {reply : Option Reply}
    (h : fs.mkdirAttempt p name now = some (reply, fs')) :
    fs.disk.Trail Disk.Recoverable fs'.disk := by
  have hstart := Disk.Trail.refl (hc.recoverable hl)
  have h32 := Consistent.asU32_of_inodeNo hp.1
  rw [Fs.mkdirAttempt, h32, hc.readInode hp.1, Option.bind_eq_bind, Option.bind_some] at h
  obtain ⟨found, hfind, h⟩ := Option.bind_eq_some_iff.mp h
  cases found with
  | some slot =>
    simp only [Option.isSome_some, if_true, Option.some.injEq, Prod.mk.injEq] at h
    exact h.2 ▸ hstart
  | none =>
    simp only [Option.isSome_none, Bool.false_eq_true, if_false] at h
    obtain ⟨number, hnumber, h⟩ := Option.bind_eq_some_iff.mp h
    rcases findInodeNo_cases hc (fun n h₁ h₂ => Or.inr (Or.inl ⟨h₁, h₂⟩)) (by decide) hnumber with
      ⟨rfl, -⟩ | ⟨n, rfl, hlo, hhi, hunused, -⟩
    · simp only [Option.some.injEq, Prod.mk.injEq] at h
      exact h.2 ▸ hstart
    · have hn : InodeNo n := Or.inr (Or.inl ⟨hlo, hhi⟩)
      have hroom : fs.disk.Roomy (dirAsks fs.disk (fs.disk.inode p) + 1) := by
        have hasks : fs.asks (.mkdir p name) = 1 + dirAsks fs.disk (fs.disk.inode p) := by
          simp only [Fs.asks, h32]
          rw [show dirFind fs.disk (fs.disk.inode p) (Fs.nameOr "unknown" name) = some none from hfind,
            hnumber]
        rwa [Fs.StepSafe, hasks, Nat.add_comm] at hsafe
      obtain ⟨⟨dataBlock, d₁, sb₁⟩, halloc, h⟩ := Option.bind_eq_some_iff.mp h
      have hmarked := allocateBlock_trail hstart.last hc.layout halloc
      cases dataBlock with
      | none =>
        simp only [Option.some.injEq, Prod.mk.injEq] at h
        exact h.2 ▸ hmarked
      | some b =>
        obtain ⟨-, hf, hroom₁⟩ := Footprint.of_allocateBlock hc.sized hc.layout hc.owned.low hroom
          halloc
        have hplain := Disk.Plain.of_alloc hc.owned hf
        have hlow := hplain.low
        have hdata := hmarked.plain hplain (Fs.dotsBlock n p)
        have hs := Stocked.directory (p := p) hc hn hf (now 0)
        have hno : (madeInode n b (now 0)).inodeNo.toNat = n := toNat_ofNat_of_inodeNo hn
        obtain ⟨d₂, hput, h⟩ := Option.bind_eq_some_iff.mp h
        obtain rfl := hdata.last.sized.eq_of_writeInode hf.layout (i := madeInode n b (now 0))
          (by rw [hno]; exact hn.recordBlock_lt) hput
        have hstored := hdata.putInode hs.consistent
        have hroom' : ((d₁.writeBlock b (Fs.dotsBlock n p)).putInode
            (madeInode n b (now 0))).Roomy (dirAsks fs.disk (fs.disk.inode p)) :=
          (hroom₁.writeBlock _ (Or.inl hlow)).congr fun c hc' => Disk.bit_putInode _ _ hc'
        obtain ⟨⟨result, d₃, sb₃, dir'⟩, hadd, h⟩ := Option.bind_eq_some_iff.mp h
        have hadded := hstored.trans (hs.trail hc hp (fun heq => hunused (heq ▸ hp))
          hstored.last.layout hroom' hadd)
        cases result with
        | error e =>
          simp only [Option.some.injEq, Prod.mk.injEq] at h
          exact h.2 ▸ hadded
        | ok u =>
          simp only [Option.some.injEq, Prod.mk.injEq] at h
          exact h.2 ▸ hadded

theorem setattr_trail (hc : Consistent fs) (hl : Layout (SuperBlock.fromBytes (fs.disk.block 0)))
    (hn : fs.disk.Live n) {mode : Option UInt32} {size : Option UInt64} {reply : Reply}
    (h : fs.setattr n mode size now = some (reply, fs')) :
    fs.disk.Trail Disk.Recoverable fs'.disk := by
  have hend := (@setattr_outcome _ _ _ hc hn mode size now _ h).consistent
  rw [setattr_some hc hn] at h
  simp only [Option.some.injEq, Prod.mk.injEq] at h
  obtain ⟨-, rfl⟩ := h
  exact (Disk.Trail.refl (hc.recoverable hl)).putInode hend

theorem WriteOutcome.consistent {offset : Int64} {data : List UInt8} {reply : Reply}
    (h : WriteOutcome fs n offset data (some reply) fs') (hc : Consistent fs) : Consistent fs' := by
  cases h with
  | empty _ => exact hc
  | tooBig _ _ => exact hc
  | stalled _ _ _ _ hs _ => exact hs.consistent
  | wrote _ _ _ hw => exact hw.consistent

/-- The blocks of a file that has grown. -/
theorem Grown.plain {fs₁ : Fs} {i : Inode} {m : ℕ} {new : List ℕ} (hc : Consistent fs)
    (hn : fs.disk.Live n) (hm : (fs.disk.inode n).Mapped fs.disk)
    (hg : Grown fs fs₁ (fs.disk.inode n) i m new) : ∀ b ∈ i.blocks fs₁.disk, fs₁.disk.Plain b := by
  intro b hb
  obtain ⟨h0, k, hk, rfl⟩ := Inode.mem_blocks.mp hb
  by_cases hlt : k < (fs.disk.inode n).blockCount.toNat
  · rw [hg.ptr k hlt]
    have hmem := Inode.mem_blocks_of_ptr hlt (hm k hlt)
    exact (Disk.Plain.of_mem_blocks hc.owned hn hmem).of_footprint hg.footprint
  · have hnew := (hg.fresh hm.linked k (by omega) hk).1
    obtain ⟨hlow, hb, hfree, hr⟩ := hg.footprint.fresh _ hnew
    have hplain : fs.disk.Plain (i.ptr fs₁.disk k) := by
      refine .of_not_held (by omega) hb hr fun q hq => ?_
      rw [(hc.owned.range q _ hq).2.2.1] at hfree
      cases hfree
    exact hplain.of_footprint hg.footprint

private theorem near_arith {o len x : ℕ} (ho : o < 2 ^ 64) (hlen : len < 2 ^ 31)
    (hx : x = (o + len + 509) % 2 ^ 64) (hreq : x / 510 % 2 ^ 32 ≤ 20)
    (hnear : o % 2 ^ 32 / 510 < 265) :
    o % 2 ^ 32 / 510 * 510 + o % 510 + len ≤ 510 * 265 := by
  have hsmall : o % 2 ^ 32 < 510 * 265 := by omega
  have hnowrap : o + len + 509 < 2 ^ 64 := by
    by_contra h
    have : 2 ^ 31 - 509 ≤ o % 2 ^ 32 := by omega
    omega
  rw [Nat.mod_eq_of_lt hnowrap] at hx
  generalize hq : x / 510 / 2 ^ 32 = q
  generalize hr : x / 510 % 2 ^ 32 = r at *
  generalize hs : x % 510 = s
  have hsplit : x = 510 * (2 ^ 32 * q + r) + s := by omega
  have hfirst : len + 509 ≤ 510 * r + s := by
    by_contra h
    have : o + (len + 509 - 510 * r - s) = 2 ^ 32 * (510 * q) := by omega
    omega
  have hy : o = 2 ^ 32 * (510 * q) + (510 * r + s - len - 509) := by omega
  have hrem : o % 2 ^ 32 = 510 * r + s - len - 509 := by omega
  have hmod : o % 510 = o % 2 ^ 32 % 510 := by omega
  omega

/-- A write of less than 2 GiB lies inside the blocks that it asks for, or begins so far away that no
block can be found. -/
theorem write_within_or_beyond {offset : Int64} {len : ℕ} (hlen : len < 2 ^ 31)
    (hreq : (Fs.requiredBlocks offset len).toNat ≤ 20) :
    Fs.writePos offset + len ≤ 510 * 265 ∨ 265 ≤ offset.toUInt64.toUInt32.toNat / pageSize := by
  rw [toNat_requiredBlocks (by omega)] at hreq
  rw [Fs.writePos, UInt64.toNat_toUInt32, or_iff_not_imp_right]
  intro hnear
  exact near_arith offset.toUInt64.toNat_lt hlen rfl hreq (Nat.lt_of_not_le hnear)

theorem writeAttempt_trail (hc : Consistent fs)
    (hl : Layout (SuperBlock.fromBytes (fs.disk.block 0))) (hn : fs.disk.Live n)
    (hm : (fs.disk.inode n).Mapped fs.disk) {offset : Int64} {data : List UInt8}
    (hlen : data.length < 2 ^ 31) (hsafe : fs.StepSafe (.write n offset data))
    {reply : Option Reply} (h : fs.writeAttempt n offset data now = some (reply, fs')) :
    fs.disk.Trail Disk.Recoverable fs'.disk := by
  have hstart := Disk.Trail.refl (hc.recoverable hl)
  have hp := hc.placed hn
  have h32 := Consistent.asU32_of_inodeNo hn.1
  have houtcome := writeAttempt_outcome hc hn hsafe h
  rw [Fs.writeAttempt, h32, hc.readInode hn.1, Option.bind_eq_bind, Option.bind_some] at h
  dsimp only at h
  split_ifs at h with hzero hbig
  · simp only [Option.some.injEq, Prod.mk.injEq] at h
    exact h.2 ▸ hstart
  · simp only [Option.some.injEq, Prod.mk.injEq] at h
    exact h.2 ▸ hstart
  have hreq : (Fs.requiredBlocks offset data.length).toNat ≤ 20 :=
    Nat.le_of_not_lt fun hlt => hbig (UInt32.lt_iff_toNat_lt.mpr hlt)
  have h16 : (Fs.requiredBlocks offset data.length).toUInt16.toNat =
      (Fs.requiredBlocks offset data.length).toNat := by
    rw [UInt32.toNat_toUInt16]
    exact Nat.mod_eq_of_lt (by omega)
  have hroom : fs.disk.Roomy ((fs.disk.inode n).growAsks
      ((Fs.requiredBlocks offset data.length).toUInt16.toNat -
        (fs.disk.inode n).blockCount.toNat)) := by
    have hasks : fs.asks (.write n offset data) = (fs.disk.inode n).growAsks
        ((Fs.requiredBlocks offset data.length).toUInt16.toNat -
          (fs.disk.inode n).blockCount.toNat) := by
      simp only [Fs.asks, h32]
      rw [if_neg (not_or.mpr ⟨hzero, hbig⟩)]
    rwa [Fs.StepSafe, hasks] at hsafe
  rw [h16] at hroom h
  obtain ⟨⟨growth, d₁, sb₁⟩, hgrow, h⟩ := Option.bind_eq_some_iff.mp h
  have hgrown := growLoop_trail hc hn hm.linked (Grown.refl hp) hl (fun hpos => by omega) hroom hgrow
  cases growLoop_outcome hp (hc.owned.used hn) hc.owned.low (fun hpos => by omega) hroom hgrow with
  | full hlt hg hr =>
    simp only [Option.some.injEq, Prod.mk.injEq] at h
    exact h.2 ▸ hgrown
  | stuck hlt hg h10 hf hr =>
    simp only [Option.some.injEq, Prod.mk.injEq] at h
    exact h.2 ▸ hgrown
  | @grown _ i₁ new hg =>
    obtain ⟨⟨found, d₂⟩, hwrite, h⟩ := Option.bind_eq_some_iff.mp h
    have hp₁ := hg.placed hp
    have hmod : offset.toUInt64.toNat % pageSize < 510 := Nat.mod_lt _ (by decide)
    have hstored : d₁.Trail Disk.Recoverable d₂ := by
      rcases write_within_or_beyond hlen hreq with hnear | hfar
      · have honDisk : i₁.OnDisk d₁ := hp₁.onDisk
        have hplain := hg.plain hc hn hm
        refine writeLoop_trail hgrown.last honDisk hg.nodup hplain (le_refl _) hmod (
          (writePos_add_le hreq hnear).trans (Nat.mul_le_mul_left _ ?_)) hwrite
        rw [hg.blockCount]
        omega
      · rw [show data.length = data.length - 1 + 1 by omega, Fs.writeLoop, if_neg hzero] at hwrite
        obtain ⟨q, hq, hwrite⟩ := Option.bind_eq_some_iff.mp hwrite
        cases q with
        | some b => exact absurd (getBlock_lt hq) (Nat.not_lt.mpr hfar)
        | none =>
          simp only [Option.some.injEq, Prod.mk.injEq] at hwrite
          exact hwrite.2 ▸ .refl hgrown.last
    cases found with
    | false =>
      simp only [Bool.not_false, if_true, Option.some.injEq, Prod.mk.injEq] at h
      exact h.2 ▸ hgrown.trans hstored
    | true =>
      simp only [Bool.not_true, Bool.false_eq_true, if_false] at h
      obtain ⟨d₃, hput, h⟩ := Option.bind_eq_some_iff.mp h
      have hno : InodeNo i₁.inodeNo.toNat := hp₁.inodeNo
      obtain rfl := hstored.last.sized.eq_of_writeInode hg.footprint.layout (by
        split_ifs <;> exact hno.recordBlock_lt) hput
      simp only [Option.some.injEq, Prod.mk.injEq] at h
      obtain ⟨rfl, rfl⟩ := h
      exact hgrown.trans (hstored.putInode (houtcome.consistent hc))

/-- An inode is put out of use. -/
theorem Consistent.putDead (hc : Consistent fs) {dead : Inode} (hno : InodeNo dead.inodeNo.toNat)
    (hz : dead.nlink = 0) : Consistent ⟨fs.disk.putInode dead, fs.sb⟩ := by
  have hf := Footprint.putInode hc.sized hc.layout hno
  have hheld : (fs.disk.putInode dead).held dead.inodeNo.toNat = [] := by
    refine Disk.held_of_not_live fun hl => hl.2 ?_
    rw [Disk.inode_putInode_self, hz]
  refine hc.change hf (by simp) (fun b hb => ?_) ?_
  · rw [show (Fs.mk (fs.disk.putInode dead) fs.sb).disk.held _ = [] from hheld] at hb
    simp at hb
  · rw [show (Fs.mk (fs.disk.putInode dead) fs.sb).disk.held _ = [] from hheld]
    exact List.nodup_nil

/-- Where an inode has no blocks there is nothing to free. -/
theorem freeDataBlocks_of_blocks_eq_nil {d : Disk} (hd : d.Sized) {i : Inode} (hon : i.OnDisk d)
    (h : i.blocks d = []) (sb : SuperBlock) : Fs.freeDataBlocks d sb i = some (d, sb) := by
  have hstep : ∀ k ∈ List.range i.blockCount.toNat,
      Fs.freeDataBlock i (d, sb) k = some (d, sb) := by
    intro k hk
    have hnone : Inode.pointer (i.ptr d k) = none := by
      by_contra hsome
      obtain ⟨b, hb⟩ := Option.ne_none_iff_exists'.mp hsome
      obtain ⟨hb, h0⟩ := Inode.pointer_eq_some.mp hb
      have hmem := Inode.mem_blocks_of_ptr (List.mem_range.mp hk) (hb ▸ h0)
      rw [h] at hmem
      simp at hmem
    rw [Fs.freeDataBlock, hon.getBlock hd, hnone]
    rfl
  unfold Fs.freeDataBlocks
  generalize List.range i.blockCount.toNat = ks at hstep ⊢
  induction ks with
  | nil => rfl
  | cons k ks ih =>
    rw [List.foldlM_cons, hstep k List.mem_cons_self]
    exact ih fun j hj => hstep j (List.mem_cons_of_mem k hj)

theorem unlink_trail (hc : Consistent fs) (hl : Layout (SuperBlock.fromBytes (fs.disk.block 0)))
    (hp : fs.disk.Live p) (hdir : (fs.disk.inode p).isDir = true) {name : ByteArray}
    (hlive : ∀ e ∈ (fs.disk.inode p).entries fs.disk, e.named (Fs.nameOr "" name) = true →
      fs.disk.Live e.inode.toNat)
    (hempty : ∀ e s, dirFind fs.disk (fs.disk.inode p) (Fs.nameOr "" name) = some (some (e, s)) →
      (fs.disk.inode e.inode.toNat).isDir = false →
      (fs.disk.inode e.inode.toNat).refs fs.disk = []) {reply : Reply}
    (h : fs.unlink p name now = some (reply, fs')) : fs.disk.Trail Disk.Recoverable fs'.disk := by
  have hstart := Disk.Trail.refl (hc.recoverable hl)
  have hplaced := hc.placed hp
  rw [Fs.unlink, Consistent.asU32_of_inodeNo hp.1, hc.readInode hp.1, Option.bind_eq_bind,
    Option.bind_some] at h
  obtain ⟨found, hfind, h⟩ := Option.bind_eq_some_iff.mp h
  cases found with
  | none =>
    simp only [Option.some.injEq, Prod.mk.injEq] at h
    exact h.2 ▸ hstart
  | some slot =>
    obtain ⟨e, s⟩ := slot
    obtain ⟨pre, post, hfirst⟩ := dirFind_eq_some hplaced.sized hplaced.onDisk hfind
    have hce := hlive e hfirst.mem_entries hfirst.named
    have hcno := Consistent.toNat_inodeNo (d := fs.disk) hce.1
    dsimp only at h
    rw [hc.readInode hce.1, Option.bind_eq_bind, Option.bind_some] at h
    split_ifs at h with hchild
    · simp only [Option.some.injEq, Prod.mk.injEq] at h
      exact h.2 ▸ hstart
    have hpc : p ≠ e.inode.toNat := by
      intro heq
      rw [heq] at hdir
      exact hchild hdir
    have hrefs := hempty e s hfind (by simpa using hchild)
    obtain ⟨hblocks, hind⟩ := List.append_eq_nil_iff.mp hrefs
    have hi : (fs.disk.inode e.inode.toNat).indirectBlock = 0 := by
      by_contra h0
      rw [if_neg h0] at hind
      simp at hind
    rw [freeDataBlocks_of_blocks_eq_nil hc.sized (hc.placed hce).onDisk hblocks, Option.bind_eq_bind,
      Option.bind_some] at h
    dsimp only at h
    rw [Fs.freeIndirectBlock, if_neg (not_not.mpr hi), Option.bind_eq_bind, Option.bind_some] at h
    dsimp only at h
    let dead : Inode := { fs.disk.inode e.inode.toNat with nlink := 0 }
    have hdead : dead.inodeNo.toNat = e.inode.toNat := hcno
    have hno : InodeNo dead.inodeNo.toNat := hdead ▸ hce.1
    obtain ⟨d₁, hput, h⟩ := Option.bind_eq_some_iff.mp h
    obtain rfl := hc.sized.eq_of_writeInode hc.layout (i := dead) hno.recordBlock_lt hput
    have hc₁ := hc.putDead hno rfl
    have hstored := hstart.putInode hc₁
    have hparent : (fs.disk.putInode dead).inode p = fs.disk.inode p := by
      rw [Disk.inode_putInode, if_neg (hdead ▸ hpc)]
    obtain ⟨⟨result, d₂, dir'⟩, hremove, h⟩ := Option.bind_eq_some_iff.mp h
    rw [← hparent] at hremove
    have hremoved := hstored.trans (dirRemoveEntry_trail hc₁ hstored.last.layout
      ⟨hp.1, by rw [hparent]; exact hp.2⟩ hremove)
    cases result with
    | error _ => simp at h
    | ok u =>
      simp only [Option.some.injEq, Prod.mk.injEq] at h
      exact h.2 ▸ hremoved

theorem rmdir_trail (hc : Consistent fs) (hl : Layout (SuperBlock.fromBytes (fs.disk.block 0)))
    (hp : fs.disk.Live p) {name : ByteArray}
    (hlive : ∀ e ∈ (fs.disk.inode p).entries fs.disk, e.named (Fs.nameOr "" name) = true →
      fs.disk.Live e.inode.toNat)
    (hempty : ∀ e s, dirFind fs.disk (fs.disk.inode p) (Fs.nameOr "" name) = some (some (e, s)) →
      (fs.disk.inode e.inode.toNat).isDir = true →
      ((fs.disk.inode e.inode.toNat).entries fs.disk).length ≤ 2 →
      (fs.disk.inode e.inode.toNat).blocks fs.disk = []) {reply : Reply}
    (h : fs.rmdir p name now = some (reply, fs')) : fs.disk.Trail Disk.Recoverable fs'.disk := by
  have hstart := Disk.Trail.refl (hc.recoverable hl)
  have hplaced := hc.placed hp
  rw [Fs.rmdir, Consistent.asU32_of_inodeNo hp.1, hc.readInode hp.1, Option.bind_eq_bind,
    Option.bind_some] at h
  obtain ⟨found, hfind, h⟩ := Option.bind_eq_some_iff.mp h
  cases found with
  | none =>
    simp only [Option.some.injEq, Prod.mk.injEq] at h
    exact h.2 ▸ hstart
  | some slot =>
    obtain ⟨e, s⟩ := slot
    obtain ⟨pre, post, hfirst⟩ := dirFind_eq_some hplaced.sized hplaced.onDisk hfind
    have hce := hlive e hfirst.mem_entries hfirst.named
    have hcno := Consistent.toNat_inodeNo (d := fs.disk) hce.1
    have hcplaced := hc.placed hce
    dsimp only at h
    rw [hc.readInode hce.1, Option.bind_eq_bind, Option.bind_some] at h
    split_ifs at h with hchild
    · simp only [Option.some.injEq, Prod.mk.injEq] at h
      exact h.2 ▸ hstart
    rw [dirLookup_eq hcplaced.sized hcplaced.onDisk, Option.bind_eq_bind, Option.bind_some] at h
    split_ifs at h with hfull
    · simp only [Option.some.injEq, Prod.mk.injEq] at h
      exact h.2 ▸ hstart
    have hblocks := hempty e s hfind (by simpa using hchild) (by
      rw [← Inode.length_filter_slots]
      omega)
    rw [freeDataBlocks_of_blocks_eq_nil hc.sized hcplaced.onDisk hblocks, Option.bind_eq_bind,
      Option.bind_some] at h
    dsimp only at h
    obtain ⟨⟨result, d₁, dir'⟩, hremove, h⟩ := Option.bind_eq_some_iff.mp h
    have hremoved := dirRemoveEntry_trail hc hl hp hremove
    cases result with
    | error _ => simp at h
    | ok u =>
      rcases dirRemoveEntry_cases hplaced hremove with ⟨herror, -⟩ | ⟨-, hrem⟩
      · cases herror
      have hc₁ := hrem.consistent hc hp
      let dead : Inode := { fs.disk.inode e.inode.toNat with nlink := 0 }
      have hdead : dead.inodeNo.toNat = e.inode.toNat := hcno
      have hno : InodeNo dead.inodeNo.toNat := hdead ▸ hce.1
      obtain ⟨d₂, hput, h⟩ := Option.bind_eq_some_iff.mp h
      obtain rfl := hc₁.sized.eq_of_writeInode hc₁.layout (i := dead) hno.recordBlock_lt hput
      simp only [Option.some.injEq, Prod.mk.injEq] at h
      obtain ⟨-, rfl⟩ := h
      exact hremoved.putInode (hc₁.putDead hno rfl)

end Trails

end SimpleFS
