import SimpleFS.Requests.Consistent

/-! What `write` and `setattr` do to the inode they are about. -/
namespace SimpleFS
open Overlay

/-- `get_block` finds nothing from position 265 on. -/
theorem getBlock_lt {d : Disk} {i : Inode} {k b : ℕ} (h : i.getBlock d k = some (some b)) :
    k < 265 := by
  unfold Inode.getBlock at h
  simp only [directBlockCount, pageSize, blockSize] at h
  split_ifs at h with hk hi hover
  · omega
  · obtain ⟨buf, -, h⟩ := Option.bind_eq_some_iff.mp h
    simp at h
  · omega
  · simp at h

/-- A write that finds all its blocks stays inside what an inode can address. -/
theorem writeLoop_range {i : Inode} {turns : ℕ} : ∀ {d d' : Disk} {k off : ℕ} {data : List UInt8},
    data.length ≤ turns → off < 510 → 0 < data.length →
    Fs.writeLoop i turns d k off data = some (true, d') →
    k * 510 + off + data.length ≤ 510 * 265 := by
  induction turns with
  | zero =>
    intro d d' k off data hlen _ hpos
    omega
  | succ turns ih =>
    intro d d' k off data hlen hoff hpos h
    rw [Fs.writeLoop, if_neg (by omega)] at h
    obtain ⟨q, hq, h⟩ := Option.bind_eq_some_iff.mp h
    cases q with
    | none => simp at h
    | some b =>
      have hk := getBlock_lt hq
      obtain ⟨buf, -, h⟩ := Option.bind_eq_some_iff.mp h
      obtain ⟨m, hmin, hmr, hfit, hlast⟩ := piece_spec data.length hoff
      simp only [pageSize, blockSize, Nat.reduceSub, hmin] at h
      have hdrop : (data.drop m).length = data.length - m := List.length_drop
      rcases hlast with hall | hfull
      · omega
      · by_cases hrest : 0 < (data.drop m).length
        · have hnext := ih (by omega) (by omega) hrest h
          rw [Nat.add_zero] at hnext
          omega
        · omega

/-- The place at which `write` begins: its block and the place in the block are found apart. -/
def Fs.writePos (offset : Int64) : ℕ :=
  offset.toUInt64.toUInt32.toNat / pageSize * pageSize + offset.toUInt64.toNat % pageSize

/-- The size that `write` gives to a file of size `size`. -/
def Fs.newSize (offset : Int64) (len : ℕ) (size : UInt32) : UInt32 :=
  if offset.toUInt64 + .ofNat len > size.toUInt64 then (offset.toUInt64 + .ofNat len).toUInt32
  else size

private theorem required_arith {o len x : ℕ} (ho : o < 2 ^ 64) (hx : x = (o + len + 509) % 2 ^ 64)
    (hreq : x / 510 % 2 ^ 32 ≤ 20) (hrange : o % 2 ^ 32 / 510 * 510 + o % 510 + len ≤ 510 * 265) :
    o % 2 ^ 32 / 510 * 510 + o % 510 + len ≤ 510 * (x / 510 % 2 ^ 32) := by
  have hnowrap : o + len + 509 < 2 ^ 64 := by
    by_contra h
    have : 2 ^ 32 - 510 * 300 ≤ o % 2 ^ 32 := by omega
    omega
  rw [Nat.mod_eq_of_lt hnowrap] at hx
  generalize hq : x / 510 / 2 ^ 32 = q
  generalize hr : x / 510 % 2 ^ 32 = r at *
  generalize hs : x % 510 = s
  have hsplit : x = 510 * (2 ^ 32 * q + r) + s := by omega
  have hsmall : o % 2 ^ 32 ≤ 510 * 300 := by omega
  have hy : o = 510 * 2 ^ 32 * q + o % 2 ^ 32 := by omega
  have hmod : o % 510 = o % 2 ^ 32 % 510 := by omega
  omega

theorem toNat_requiredBlocks {offset : Int64} {len : ℕ} (hlen : len < 2 ^ 64) :
    (Fs.requiredBlocks offset len).toNat =
      (offset.toUInt64.toNat + len + 509) % 2 ^ 64 / 510 % 2 ^ 32 := by
  have hlen : (UInt64.ofNat len).toNat = len := UInt64.toNat_ofNat_of_lt' hlen
  have hpage : (UInt64.ofNat pageSize).toNat = 510 := rfl
  have hone : (1 : UInt64).toNat = 1 := rfl
  rw [Fs.requiredBlocks, UInt64.toNat_toUInt32, UInt64.toNat_div, UInt64.toNat_sub,
    UInt64.toNat_add, UInt64.toNat_add, hlen, hpage, hone]
  omega

/-- The blocks counted by `requiredBlocks` hold the data, also where the arithmetic wraps. -/
theorem writePos_add_le {offset : Int64} {len : ℕ} (hreq : (Fs.requiredBlocks offset len).toNat ≤ 20)
    (hrange : Fs.writePos offset + len ≤ 510 * 265) :
    Fs.writePos offset + len ≤ 510 * (Fs.requiredBlocks offset len).toNat := by
  have hval := @toNat_requiredBlocks offset len (by omega)
  rw [hval] at hreq ⊢
  rw [Fs.writePos, UInt64.toNat_toUInt32] at hrange ⊢
  exact required_arith offset.toUInt64.toNat_lt rfl hreq hrange

/-- Inode `j` is `i` with other attributes: the block map is the same. -/
structure SameMap (j i : Inode) : Prop where
  inodeNo : j.inodeNo = i.inodeNo
  blockCount : j.blockCount = i.blockCount
  directBlocks : j.directBlocks = i.directBlocks
  indirectBlock : j.indirectBlock = i.indirectBlock

namespace SameMap

variable {i j : Inode} (h : SameMap j i) (d : Disk)

include h

theorem ptr (k : ℕ) : j.ptr d k = i.ptr d k := by
  rw [Inode.ptr, Inode.ptr, Inode.direct, Inode.direct, h.directBlocks, h.indirectBlock]

theorem blocks : j.blocks d = i.blocks d := by
  simp only [Inode.blocks, h.blockCount, h.ptr d]

theorem refs : j.refs d = i.refs d := by
  rw [Inode.refs, Inode.refs, h.blocks d, h.indirectBlock]

theorem table : j.table d = i.table d := by
  rw [Inode.table, Inode.table, Inode.slots, Inode.slots, h.blocks d]

theorem mapped (hm : i.Mapped d) : j.Mapped d := by
  intro k hk
  rw [h.ptr d]
  exact hm k (h.blockCount ▸ hk)

theorem content : j.content d = i.content d := by
  funext x
  simp only [Inode.content, Inode.byte, h.blockCount, h.ptr d]

theorem shaped (hs : i.Shaped) : j.Shaped := by
  rw [Inode.Shaped, h.indirectBlock, h.blockCount]
  exact hs

end SameMap

/-- The inode `i` was stored as `j`. -/
structure Restamped (fs fs' : Fs) (i j : Inode) : Prop where
  footprint : Footprint fs fs' [i.inodeNo.toNat] [] [] []
  inode : fs'.disk.inode i.inodeNo.toNat = j
  block : ∀ b ∈ i.refs fs.disk, fs'.disk.block b = fs.disk.block b
  refs : j.refs fs'.disk = i.refs fs.disk
  table : j.table fs'.disk = i.table fs.disk
  mapped : i.Mapped fs.disk → j.Mapped fs'.disk
  content : i.Mapped fs.disk → j.content fs'.disk = i.content fs.disk

theorem Placed.restamp {fs : Fs} {i j : Inode} (hp : Placed fs i) (h : SameMap j i) :
    writeInode fs.disk fs.sb j = some (fs.disk.putInode j) ∧
      Restamped fs ⟨fs.disk.putInode j, fs.sb⟩ i j := by
  have hno : InodeNo j.inodeNo.toNat := by
    rw [h.inodeNo]
    exact hp.inodeNo
  have hf := Footprint.putInode hp.sized hp.layout hno
  have hinode := Disk.inode_putInode_self fs.disk j
  rw [h.inodeNo] at hf hinode
  have hkeep := hp.block_putInode fs.disk j h.inodeNo
  have hind : i.indirectBlock ≠ 0 → (fs.disk.putInode j).block i.indirectBlock.toNat =
      fs.disk.block i.indirectBlock.toNat :=
    fun hi => hkeep _ (Inode.indirectBlock_mem_refs hi)
  refine ⟨hp.sized.writeInode hp.layout hno.recordBlock_lt, hf, hinode, hkeep, ?_, ?_, fun hm => ?_,
    fun hm => ?_⟩
  · rw [h.refs, Inode.refs_congr hind]
  · rw [h.table, Inode.table, Inode.slots_congr hkeep, Inode.table]
  · refine h.mapped _ fun k hk => ?_
    rw [Inode.ptr_congr hind]
    exact hm k hk
  · rw [h.content, Inode.content_congr hm hkeep]

/-- `data` was stored in inode `n`, which got the blocks `new` for it. -/
structure Wrote (fs fs' : Fs) (n : ℕ) (offset : Int64) (data : List UInt8) (new : List ℕ) :
    Prop where
  consistent : Consistent fs'
  footprint : Footprint fs fs' [n] ((fs.disk.inode n).slack ++ fs.disk.held n) new []
  mode : (fs'.disk.inode n).mode = (fs.disk.inode n).mode
  nlink : (fs'.disk.inode n).nlink = (fs.disk.inode n).nlink
  size : (fs'.disk.inode n).size = Fs.newSize offset data.length (fs.disk.inode n).size
  blockCount : (fs'.disk.inode n).blockCount.toNat =
    max (fs.disk.inode n).blockCount.toNat (Fs.requiredBlocks offset data.length).toNat
  fits : Fs.writePos offset + data.length ≤ 510 * (fs'.disk.inode n).blockCount.toNat
  refs : ∀ b ∈ fs'.disk.held n, b ∈ fs.disk.held n ∨ b ∈ new
  mapped : (fs.disk.inode n).Mapped fs.disk → (fs'.disk.inode n).Mapped fs'.disk
  content : (fs.disk.inode n).Mapped fs.disk → (fs'.disk.inode n).content fs'.disk =
    patch ((fs.disk.inode n).content fs.disk) (Fs.writePos offset) data
  shaped : (fs.disk.inode n).Shaped → (fs'.disk.inode n).Shaped ∧
    (fs'.disk.held n).Perm (fs.disk.held n ++ new)

/-- The blocks `new` were taken for inode `n`, but they were not enough, and are lost. -/
structure Stalled (fs fs' : Fs) (n : ℕ) (new : List ℕ) : Prop where
  consistent : Consistent fs'
  footprint : Footprint fs fs' [] (fs.disk.inode n).slack new []
  inode : fs'.disk.inode n = fs.disk.inode n
  refs : (fs.disk.inode n).refs fs'.disk = (fs.disk.inode n).refs fs.disk
  block : ∀ b ∈ (fs.disk.inode n).blocks fs.disk, fs'.disk.block b = fs.disk.block b
  mapped : (fs.disk.inode n).Mapped fs.disk → (fs.disk.inode n).Mapped fs'.disk
  content : (fs.disk.inode n).Mapped fs.disk →
    (fs.disk.inode n).content fs'.disk = (fs.disk.inode n).content fs.disk

/-- What a call of `write` has done: it answered, or it panicked with no block left for the indirect
block, or with a block of the file not found. -/
inductive WriteOutcome (fs : Fs) (n : ℕ) (offset : Int64) (data : List UInt8) :
    Option Reply → Fs → Prop
  | empty : data = [] → WriteOutcome fs n offset data (some (.written 0)) fs
  | tooBig : data ≠ [] → 20 < (Fs.requiredBlocks offset data.length).toNat →
      WriteOutcome fs n offset data (some (.error .EFBIG)) fs
  | stalled {fs' m new} : data ≠ [] → (Fs.requiredBlocks offset data.length).toNat ≤ 20 →
      m < (Fs.requiredBlocks offset data.length).toNat - (fs.disk.inode n).blockCount.toNat →
      new.length = (fs.disk.inode n).growAsks m → Stalled fs fs' n new → fs'.Refuses →
      WriteOutcome fs n offset data (some (.error .ENOSPC)) fs'
  | stuck {fs' new} : data ≠ [] → (Fs.requiredBlocks offset data.length).toNat ≤ 20 →
      (fs.disk.inode n).blockCount.toNat ≤ 10 →
      10 < (Fs.requiredBlocks offset data.length).toNat →
      new.length = 11 - (fs.disk.inode n).blockCount.toNat → Stalled fs fs' n new → fs'.Refuses →
      WriteOutcome fs n offset data none fs'
  | lost {fs₁ fs' i₁ new} : data ≠ [] → (Fs.requiredBlocks offset data.length).toNat ≤ 20 →
      Grown fs fs₁ (fs.disk.inode n) i₁ ((Fs.requiredBlocks offset data.length).toNat -
        (fs.disk.inode n).blockCount.toNat) new →
      ((fs.disk.inode n).Mapped fs.disk → 510 * 265 < Fs.writePos offset + data.length) →
      WriteOutcome fs n offset data none fs'
  | wrote {fs' new} : data ≠ [] → (Fs.requiredBlocks offset data.length).toNat ≤ 20 →
      new.length = (fs.disk.inode n).growAsks
        ((Fs.requiredBlocks offset data.length).toNat - (fs.disk.inode n).blockCount.toNat) →
      Wrote fs fs' n offset data new →
      WriteOutcome fs n offset data (some (.written (data.length % 2 ^ 32))) fs'

section Outcome

variable {fs fs₁ : Fs} {n m : ℕ} {new : List ℕ}

/-- Growing changes no block that another inode holds. -/
theorem slack_held (hn : fs.disk.Live n) :
    ∀ b ∈ (fs.disk.inode n).slack, b = 0 ∨ b ∈ fs.disk.held n := by
  intro b hb
  obtain ⟨-, hb⟩ := Inode.mem_slack.mp hb
  by_cases hi : (fs.disk.inode n).indirectBlock = 0
  · rw [hi] at hb
    exact Or.inl hb
  · rw [hb, hn.held]
    exact Or.inr (Inode.indirectBlock_mem_refs hi)

theorem Stalled.of_grown (hc : Consistent fs) (hn : fs.disk.Live n) {i' : Inode}
    (h : Grown fs fs₁ (fs.disk.inode n) i' m new) : Stalled fs fs₁ n new := by
  have hp := hc.placed hn
  have hused := hc.owned.used hn
  have hinode : fs₁.disk.inode n = fs.disk.inode n := h.footprint.inode n hn.1 (by simp)
  have hrefs : (fs.disk.inode n).refs fs₁.disk = (fs.disk.inode n).refs fs.disk := by
    rw [Inode.refs, h.stale_blocks, Inode.refs]
  have hlive : fs₁.disk.Live n := (h.footprint.live_iff (by simp)).mpr hn
  have hheld : fs₁.disk.held n = fs.disk.held n := by
    rw [hlive.held, hinode, hrefs, hn.held]
  refine ⟨?_, h.footprint, hinode, hrefs, fun b hb => h.block_of_mem_blocks hp hused hb,
    fun hm k hk => ?_, h.stale_content hp hused⟩
  · refine hc.change (h.footprint.mono (List.nil_subset [n]) (List.Subset.refl _))
      (slack_held hn) (fun b hb => Or.inl (hheld ▸ hb)) ?_
    rw [hheld]
    exact hc.owned.exclusive.nodup n
  · rw [h.stale hk]
    exact hm k hk

/-- One more block is taken and lost. -/
theorem Stalled.alloc (hn : fs.disk.Live n) {fs₂ : Fs} {b : ℕ}
    (h : Stalled fs fs₁ n new) (hf : Footprint fs₁ fs₂ [] [] [b] []) :
    Stalled fs fs₂ n (new ++ [b]) := by
  have hn₁ : fs₁.disk.Live n := (h.footprint.live_iff (by simp)).mpr hn
  have hu := hf.untouched_of_live h.consistent.owned hn₁ (by simp) (by simp)
  have hn₂ : fs₂.disk.Live n := hu.live.mpr hn₁
  have hheld : fs₂.disk.held n = fs₁.disk.held n := by rw [hn₂.held, hu.refs, hn₁.held]
  have hinode : fs₂.disk.inode n = fs.disk.inode n := hu.inode.trans h.inode
  have hrefs := hu.refs
  have hblock := hu.block
  have hmapped := hu.mapped
  have hcontent := hu.content
  rw [hinode, h.inode] at hrefs hmapped hcontent
  rw [h.inode] at hblock
  refine ⟨?_, h.footprint.trans_alloc (hf.mono (List.Subset.refl _) (List.nil_subset _))
    (fun b hb => Or.inl hb), hinode, hrefs.trans h.refs, fun b hb => ?_, fun hm => hmapped (h.mapped hm),
    fun hm => (hcontent (h.mapped hm)).trans (h.content hm)⟩
  · refine h.consistent.change (hf.mono (List.nil_subset [n]) (List.Subset.refl _)) (by simp)
      (fun b hb => Or.inl (hheld ▸ hb)) ?_
    rw [hheld]
    exact h.consistent.owned.exclusive.nodup n
  · have hb₁ : b ∈ (fs.disk.inode n).refs fs₁.disk := by
      rw [h.refs]
      exact Inode.mem_refs_of_mem_blocks hb
    rw [hblock b hb₁, h.block b hb]

/-- The part of `write` after the growing: the data, then the record. -/
theorem Wrote.of_stored (hc : Consistent fs) (hn : fs.disk.Live n) {i₁ j : Inode} {fs₂ : Fs}
    {offset : Int64} {data : List UInt8}
    (hg : Grown fs fs₁ (fs.disk.inode n) i₁ m new)
    (hcount : i₁.blockCount.toNat = max (fs.disk.inode n).blockCount.toNat
      (Fs.requiredBlocks offset data.length).toNat)
    (hfit : Fs.writePos offset + data.length ≤ 510 * i₁.blockCount.toNat)
    (hs : Stored fs₁ fs₂ i₁ (Fs.writePos offset) data) (hj : SameMap j i₁)
    (hmode : j.mode = i₁.mode) (hnlink : j.nlink = i₁.nlink)
    (hsize : j.size = Fs.newSize offset data.length i₁.size) :
    Wrote fs ⟨fs₂.disk.putInode j, fs₂.sb⟩ n offset data new := by
  have hp := hc.placed hn
  have hused := hc.owned.used hn
  have hp₁ := hg.placed hp
  obtain ⟨-, hr⟩ := (hs.placed hp₁).restamp hj
  have hno : i₁.inodeNo.toNat = n := by
    rw [hg.inodeNo]
    exact Consistent.toNat_inodeNo hn.1
  have hinode := hr.inode
  have hrf := hr.footprint
  rw [hno] at hinode hrf
  dsimp only at hinode
  have hown : ∀ b ∈ i₁.blocks fs₁.disk,
      b ∈ (fs.disk.inode n).slack ++ fs.disk.held n ∨ b ∈ new := by
    intro b hb
    rw [hn.held]
    exact (hg.refs b (Inode.mem_refs_of_mem_blocks hb)).imp_left (List.mem_append_right _)
  have hfoot₁ := hg.footprint.mono (List.nil_subset [n])
    (List.subset_append_left (fs.disk.inode n).slack (fs.disk.held n))
  have hfoot₂ := hfoot₁.trans_alloc (hs.footprint.mono (List.nil_subset _) (List.Subset.refl _)) hown
  have hfoot := hfoot₂.trans_alloc hrf (by simp)
  simp only [List.append_nil] at hfoot
  have hrefs : j.refs (fs₂.disk.putInode j) = i₁.refs fs₁.disk := hr.refs.trans hs.refs
  have hlive : (fs₂.disk.putInode j).Live n :=
    ⟨hn.1, by rw [hinode, hnlink, hg.nlink]; exact hn.2⟩
  have hheld : (fs₂.disk.putInode j).held n = i₁.refs fs₁.disk := by
    rw [hlive.held, hinode, hrefs]
  have hheldsub : ∀ b ∈ (fs₂.disk.putInode j).held n, b ∈ fs.disk.held n ∨ b ∈ new := by
    rw [hheld, hn.held]
    exact hg.refs
  refine ⟨?_, hfoot, ?_, ?_, ?_, ?_, ?_, hheldsub, fun hm => ?_, fun hm => ?_, fun hsh => ?_⟩
  · refine hc.change hfoot (fun b hb => ?_) hheldsub ?_
    · rcases List.mem_append.mp hb with hb | hb
      · exact slack_held hn b hb
      · exact Or.inr hb
    · rw [show (Fs.mk (fs₂.disk.putInode j) fs₂.sb).disk.held n = _ from hheld]
      exact hg.nodup
  · rw [hinode, hmode, hg.mode]
  · rw [hinode, hnlink, hg.nlink]
  · rw [hinode, hsize, hg.size]
  · rw [hinode, hj.blockCount, hcount]
  · rw [hinode, hj.blockCount]
    exact hfit
  · rw [hinode]
    exact hr.mapped (hs.mapped (hg.mapped hm))
  · rw [hinode, hr.content (hs.mapped (hg.mapped hm)), hs.content (hg.mapped hm) hfit,
      hg.content hp hused hm]
  · obtain ⟨hsh₁, hperm⟩ := hg.shaped hsh
    rw [hinode, hheld, hn.held]
    exact ⟨hj.shaped hsh₁, hperm⟩

theorem writeAttempt_outcome {fs' : Fs} (hc : Consistent fs) (hn : fs.disk.Live n) {offset : Int64}
    {data : List UInt8} {now : ℕ → Int64} {reply : Option Reply}
    (hsafe : fs.StepSafe (.write n offset data))
    (h : fs.writeAttempt n offset data now = some (reply, fs')) :
    WriteOutcome fs n offset data reply fs' := by
  have hp := hc.placed hn
  have h32 := Consistent.asU32_of_inodeNo hn.1
  rw [Fs.writeAttempt, h32, hc.readInode hn.1, Option.bind_eq_bind, Option.bind_some] at h
  dsimp only at h
  split_ifs at h with hzero hbig
  · simp only [Option.some.injEq, Prod.mk.injEq] at h
    obtain ⟨rfl, rfl⟩ := h
    exact .empty (List.eq_nil_of_length_eq_zero hzero)
  · simp only [Option.some.injEq, Prod.mk.injEq] at h
    obtain ⟨rfl, rfl⟩ := h
    exact .tooBig (fun hnil => hzero (by rw [hnil]; rfl)) (UInt32.lt_iff_toNat_lt.mp hbig)
  · have hdata : data ≠ [] := fun hnil => hzero (by rw [hnil]; rfl)
    have hreq : (Fs.requiredBlocks offset data.length).toNat ≤ 20 :=
      Nat.le_of_not_lt fun hlt => hbig (UInt32.lt_iff_toNat_lt.mpr hlt)
    have h16 : (Fs.requiredBlocks offset data.length).toUInt16.toNat =
        (Fs.requiredBlocks offset data.length).toNat := by
      rw [UInt32.toNat_toUInt16]
      exact Nat.mod_eq_of_lt (by omega)
    have hroom : fs.disk.Roomy ((fs.disk.inode n).growAsks
        ((Fs.requiredBlocks offset data.length).toUInt16.toNat -
          (fs.disk.inode n).blockCount.toNat)) := by
      have hasks : fs.asks (.write n offset data) = (fs.disk.inode n).growAsks
          ((Fs.requiredBlocks offset data.length).toUInt16.toNat -
            (fs.disk.inode n).blockCount.toNat) := by
        simp only [Fs.asks, h32]
        rw [if_neg (not_or.mpr ⟨hzero, hbig⟩)]
      rwa [Fs.StepSafe, hasks] at hsafe
    rw [h16] at hroom h
    obtain ⟨⟨growth, d₁, sb₁⟩, hgrow, h⟩ := Option.bind_eq_some_iff.mp h
    have houtcome := growLoop_outcome hp (hc.owned.used hn) hc.owned.low (fun hpos => by omega)
      hroom hgrow
    cases houtcome with
    | full hm hg hr =>
      simp only [Option.some.injEq, Prod.mk.injEq] at h
      obtain ⟨rfl, rfl⟩ := h
      exact .stalled hdata hreq hm hg.count (.of_grown hc hn hg) hr
    | @stuck fs₁ _ i₁ m new b hm hg h10 hf hr =>
      simp only [Option.some.injEq, Prod.mk.injEq] at h
      obtain ⟨rfl, rfl⟩ := h
      have hcount := hg.blockCount
      refine .stuck hdata hreq (by omega) (by omega) ?_ ((Stalled.of_grown hc hn hg).alloc hn hf) hr
      rw [List.length_append, hg.count, Inode.growAsks, if_neg (by omega), List.length_singleton]
      omega
    | @grown _ i₁ new hg =>
      dsimp only at h
      have hmod : offset.toUInt64.toNat % pageSize < 510 := Nat.mod_lt _ (by decide)
      have hcount : i₁.blockCount.toNat = max (fs.disk.inode n).blockCount.toNat
          (Fs.requiredBlocks offset data.length).toNat := by
        rw [hg.blockCount]
        omega
      obtain ⟨⟨found, d₂⟩, hwrite, h⟩ := Option.bind_eq_some_iff.mp h
      have hloop : Fs.writePos offset + data.length ≤ 510 * 265 →
          found = true ∧ Stored ⟨d₁, sb₁⟩ ⟨d₂, sb₁⟩ i₁ (Fs.writePos offset) data ∨
            found = false ∧ ¬ i₁.Mapped d₁ := by
        intro hrange
        have hfit : Fs.writePos offset + data.length ≤ 510 * i₁.blockCount.toNat := by
          refine (writePos_add_le hreq hrange).trans (Nat.mul_le_mul_left _ ?_)
          rw [hcount]
          exact le_max_right _ _
        obtain ⟨found', d', hloop, hs⟩ := @writeLoop_outcome i₁ data.length ⟨d₁, sb₁⟩
          (offset.toUInt64.toUInt32.toNat / pageSize) (offset.toUInt64.toNat % pageSize) data
          (hg.placed hp) (le_refl _) hmod hfit
        rw [hloop] at hwrite
        simp only [Option.some.injEq, Prod.mk.injEq] at hwrite
        obtain ⟨rfl, rfl⟩ := hwrite
        exact hs
      cases found with
      | false =>
        simp only [Bool.not_false, if_true, Option.some.injEq, Prod.mk.injEq] at h
        obtain ⟨rfl, rfl⟩ := h
        refine .lost hdata hreq hg fun hm => Nat.lt_of_not_le fun hrange => ?_
        rcases hloop hrange with ⟨hfound, -⟩ | ⟨-, hnot⟩
        · cases hfound
        · exact hnot (hg.mapped hm)
      | true =>
        have hrange := writeLoop_range (le_refl _) hmod (Nat.pos_of_ne_zero hzero) hwrite
        rcases hloop hrange with ⟨-, hs⟩ | ⟨hfound, -⟩
        · have hstamp : ∀ size : UInt32,
              SameMap { i₁ with size := size, mtime := now 0, atime := now 0 } i₁ :=
            fun _ => ⟨rfl, rfl, rfl, rfl⟩
          have hj : (if offset.toUInt64 + .ofNat data.length > i₁.size.toUInt64 then
              { i₁ with size := (offset.toUInt64 + .ofNat data.length).toUInt32 } else i₁) =
                { i₁ with size := Fs.newSize offset data.length i₁.size } := by
            unfold Fs.newSize
            split_ifs <;> rfl
          have hfit : Fs.writePos offset + data.length ≤ 510 * i₁.blockCount.toNat := by
            refine (writePos_add_le hreq hrange).trans (Nat.mul_le_mul_left _ ?_)
            rw [hcount]
            exact le_max_right _ _
          simp only [Bool.not_true, Bool.false_eq_true, if_false] at h
          rw [hj] at h
          obtain ⟨d₃, hstore, h⟩ := Option.bind_eq_some_iff.mp h
          obtain rfl : _ = d₃ := Option.some.inj
            (((hs.placed (hg.placed hp)).restamp (hstamp _)).1.symm.trans hstore)
          simp only [Option.some.injEq, Prod.mk.injEq] at h
          obtain ⟨rfl, rfl⟩ := h
          exact .wrote hdata hreq hg.count
            (.of_stored hc hn hg hcount hfit hs (hstamp _) rfl rfl rfl)
        · cases hfound

end Outcome

/-- The mode that `setattr` sets keeps the type bits. -/
theorem setMode_and_sIfDir (mode : UInt16) (newMode : UInt32) :
    ((mode &&& 0xF000) ||| (newMode &&& 0o777).toUInt16) &&& sIfDir = mode &&& sIfDir := by
  have hbits : ∀ k < 16, (0x4000#16).getLsbD k = true →
      (0xF000#16).getLsbD k = true ∧ (0o777#16).getLsbD k = false := by decide
  apply UInt16.toBitVec_inj.mp
  apply BitVec.eq_of_getLsbD_eq
  intro k hk
  cases hdir : (0x4000#16).getLsbD k with
  | false => simp [sIfDir, hdir]
  | true => simp [sIfDir, hbits k hk hdir]

theorem isDir_setMode (inode : Inode) (mode : Option UInt32) :
    (Fs.setMode inode mode).isDir = inode.isDir := by
  cases mode with
  | none => rfl
  | some newMode => exact congrArg (· != 0) (setMode_and_sIfDir inode.mode newMode)

theorem nlink_setMode (inode : Inode) (mode : Option UInt32) :
    (Fs.setMode inode mode).nlink = inode.nlink := by
  cases mode <;> rfl

theorem size_setMode (inode : Inode) (mode : Option UInt32) :
    (Fs.setMode inode mode).size = inode.size := by
  cases mode <;> rfl

theorem sameMap_setMode (inode : Inode) (mode : Option UInt32) (now : Int64) :
    SameMap { Fs.setMode inode mode with mtime := now } inode := by
  cases mode <;> exact ⟨rfl, rfl, rfl, rfl⟩

/-- Inode `n` got another mode or another time. -/
structure Attributed (fs fs' : Fs) (n : ℕ) : Prop where
  consistent : Consistent fs'
  sameMap : SameMap (fs'.disk.inode n) (fs.disk.inode n)
  footprint : Footprint fs fs' [n] [] [] []
  restamped : Restamped fs fs' (fs.disk.inode n) (fs'.disk.inode n)
  isDir : (fs'.disk.inode n).isDir = (fs.disk.inode n).isDir
  nlink : (fs'.disk.inode n).nlink = (fs.disk.inode n).nlink
  size : (fs'.disk.inode n).size = (fs.disk.inode n).size

theorem setattr_outcome {fs fs' : Fs} {n : ℕ} (hc : Consistent fs) (hn : fs.disk.Live n)
    {mode : Option UInt32} {size : Option UInt64} {now : ℕ → Int64} {reply : Reply}
    (h : fs.setattr n mode size now = some (reply, fs')) : Attributed fs fs' n := by
  have hno := Consistent.toNat_inodeNo (d := fs.disk) hn.1
  rw [Fs.setattr, Consistent.asU32_of_inodeNo hn.1, hc.readInode hn.1, Option.bind_eq_bind,
    Option.bind_some] at h
  have hmap := sameMap_setMode (fs.disk.inode n) mode (now 0)
  obtain ⟨hstore, hr⟩ := (hc.placed hn).restamp hmap
  obtain ⟨d', hwrite, h⟩ := Option.bind_eq_some_iff.mp h
  obtain rfl : _ = d' := Option.some.inj (hstore.symm.trans hwrite)
  simp only [Option.some.injEq, Prod.mk.injEq] at h
  obtain ⟨-, rfl⟩ := h
  have hinode := hr.inode
  have hf := hr.footprint
  rw [hno] at hinode hf
  dsimp only at hinode
  have hlive : (fs.disk.putInode { Fs.setMode (fs.disk.inode n) mode with mtime := now 0 }).Live
      n := by
    refine ⟨hn.1, ?_⟩
    rw [hinode]
    exact (nlink_setMode (fs.disk.inode n) mode).symm ▸ hn.2
  refine ⟨hc.change hf (by simp) (fun b hb => Or.inl ?_) ?_, ?_, hf, ?_, ?_, ?_, ?_⟩
  · rw [hlive.held, hinode, hr.refs] at hb
    rwa [hn.held]
  · rw [hlive.held, hinode, hr.refs, ← hn.held]
    exact hc.owned.exclusive.nodup n
  · rw [hinode]
    exact hmap
  · rw [hinode]
    exact hr
  · rw [hinode]
    exact isDir_setMode _ mode
  · rw [hinode]
    exact nlink_setMode _ mode
  · rw [hinode]
    exact size_setMode _ mode

end SimpleFS
