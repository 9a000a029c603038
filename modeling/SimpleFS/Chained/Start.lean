import SimpleFS.Chained.Loops
import SimpleFS.Chained.Separate
import SimpleFS.Requests.Restart

/-! The superblock in memory is the one on the image, whatever the requests do to the chains. The
program can be stopped after any of them and started again. -/
namespace SimpleFS.Chained
open Runs

/-- The superblock takes the first 28 bytes of its block. -/
theorem SuperBlock.ofBlock_congr {v w : Block} (h : ∀ k < 28, v.byteAt k = w.byteAt k) :
    ofBlock v = ofBlock w := by
  have hread : ∀ off n, off + n ≤ 28 → v.readLE off n = w.readLE off n := fun off n hle =>
    Vector.leValue_congr fun k hk => h _ (by omega)
  have hmagic : v.slice 12 16 = w.slice 12 16 := by
    apply Vector.ext_byteAt
    intro k hk
    rw [Vector.byteAt_slice _ _ hk, Vector.byteAt_slice _ _ hk, h _ (by omega)]
  unfold ofBlock
  rw [hread 0 2 (by decide), hread 2 2 (by decide), hread 4 4 (by decide), hread 8 4 (by decide),
    hmagic]

theorem SuperBlock.ofBlock_copyTo {sb : SuperBlock} (hfirst : sb.firstFreeBlock < 65536)
    (hroot : sb.rootDirBlock < 65536) (v : Block) : ofBlock (sb.copyTo v) = sb := by
  obtain ⟨first, root, total, free, magic⟩ := sb
  unfold ofBlock copyTo
  simp only [mk.injEq]
  refine ⟨?_, ?_, ?_, ?_, Vector.slice_copyAt_self _ _ (by decide)⟩
  · iterate 4 rw [Vector.readLE_copyAt_of_disjoint _ _ (by decide)]
    exact (Vector.readLE_copyAt_self _ _ (by decide)).trans (Nat.mod_eq_of_lt hfirst)
  · iterate 3 rw [Vector.readLE_copyAt_of_disjoint _ _ (by decide)]
    exact (Vector.readLE_copyAt_self _ _ (by decide)).trans (Nat.mod_eq_of_lt hroot)
  · iterate 2 rw [Vector.readLE_copyAt_of_disjoint _ _ (by decide)]
    rw [Vector.readLE_copyAt_self _ _ (by decide), Vector.u32_ofNat_leValue]
  · rw [Vector.readLE_copyAt_of_disjoint _ _ (by decide), Vector.readLE_copyAt_self _ _ (by decide),
      Vector.u32_ofNat_leValue]

theorem SuperBlock.ofBlock_setNextBlockNo (v : Block) (b : ℕ) :
    ofBlock (setNextBlockNo v b) = ofBlock v := by
  apply ofBlock_congr
  intro k hk
  rw [setNextBlockNo, Vector.byteAt_copyAt, if_neg (by simp only [pageSize, blockSize]; omega)]

/-- What `init_disk` finds on the image is what the program holds in memory. -/
structure Synced (s : State) : Prop where
  sized : s.disk.Sized
  ended : s.disk.Ended
  stored : SuperBlock.ofBlock (s.disk.block 0) = s.sb
  magic : cString s.sb.magic 0 = [83, 73, 77, 80, 76, 69, 70, 83]

theorem findEntry_ne_zero {s : State} {path : Path} {e : DirEntry} {b : ℕ}
    (hf : findEntry s path = pure (some (e, b))) : b ≠ 0 := by
  have hloop : ∀ c r, s.findLoop path.name c = pure r → ∀ e b, r = some (e, b) → b ≠ 0 := by
    apply findLoop_induct
    intro loop hloop c r hr e b hsome
    split_ifs at hr with hc
    · rw [Call.pure_inj] at hr
      rw [← hr] at hsome
      cases hsome
    · obtain ⟨blockData, -, hr⟩ := Call.bind_eq_pure.mp hr
      cases hn : findName blockData path.name with
      | some i =>
        simp only [hn, Call.pure_inj] at hr
        rw [← hr] at hsome
        obtain ⟨-, rfl⟩ := Prod.mk.inj (Option.some.inj hsome)
        exact hc
      | none =>
        simp only [hn] at hr
        exact hloop _ _ hr e b hsome
  unfold findEntry at hf
  split_ifs at hf
  · rw [Call.pure_inj] at hf
    cases hf
  · exact hloop _ _ hf e b rfl

namespace Synced

variable {s s' : State} {b : ℕ}

theorem first_lt (h : Synced s) : s.sb.firstFreeBlock < 65536 := by
  rw [← h.stored]
  exact Vector.readLE_lt _ 0 2

theorem root_lt (h : Synced s) : s.sb.rootDirBlock < 65536 := by
  rw [← h.stored]
  exact Vector.readLE_lt _ 2 2

theorem put (h : Synced s) (hb : b < 20480) {buf : Block}
    (hbuf : b = 0 → SuperBlock.ofBlock buf = s.sb) : Synced ⟨s.sb, s.disk.writeBlock b buf⟩ where
  sized := h.sized.writeBlock hb buf
  ended := h.ended.writeBlock b buf
  stored := by
    rw [Disk.block_writeBlock]
    split_ifs with h0
    · exact hbuf h0.symm
    · exact h.stored
  magic := h.magic

/-- The superblock is written with each change of it. -/
theorem putSuper (h : Synced s) {disk : Disk} (hsized : disk.Sized) (hended : disk.Ended)
    (sb : SuperBlock) (hfirst : sb.firstFreeBlock < 65536)
    (hroot : sb.rootDirBlock = s.sb.rootDirBlock) (hmagic : sb.magic = s.sb.magic) (v : Block) :
    Synced ⟨sb, disk.writeBlock 0 (sb.copyTo v)⟩ where
  sized := hsized.writeBlock (by decide) _
  ended := hended.writeBlock 0 _
  stored := by
    rw [Disk.block_writeBlock_self]
    exact SuperBlock.ofBlock_copyTo hfirst (hroot ▸ h.root_lt) v
  magic := by
    rw [hmagic]
    exact h.magic

theorem allocateBlock (h : Synced s) (ha : Chained.allocateBlock s = pure (b, s')) :
    Synced s' ∧ b < 20480 := by
  unfold Chained.allocateBlock at ha
  split_ifs at ha
  · simp only [Call.pure_inj, Prod.mk.injEq] at ha
    obtain ⟨rfl, rfl⟩ := ha
    exact ⟨h, by decide⟩
  · obtain ⟨blockData, hread, ha⟩ := Call.bind_eq_pure.mp ha
    simp only [Call.pure_inj, Prod.mk.injEq] at ha
    obtain ⟨rfl, rfl⟩ := ha
    refine ⟨?_, lt_of_readBlock h.sized hread⟩
    apply h.putSuper h.sized h.ended
    · exact nextBlockNo_lt blockData
    · rfl
    · rfl

theorem freeBlock (h : Synced s) (hb : b < 20480) : Synced (Chained.freeBlock s b) := by
  unfold Chained.freeBlock
  apply h.putSuper (h.sized.writeBlock hb _) (h.ended.writeBlock b _)
  · exact hb.trans (by decide)
  · rfl
  · rfl

theorem slotLoop (h : Synced s) {r : Option (ℕ × Block × ℕ)}
    (hs : s.slotLoop b = pure (r, s')) :
    Synced s' ∧ ∀ c blockData i, r = some (c, blockData, i) → c ≠ 0 ∧ c < 20480 := by
  have hloop : ∀ b r, s.slotLoop b = pure r →
      Synced r.2 ∧ ∀ c blockData i, r.1 = some (c, blockData, i) → c ≠ 0 ∧ c < 20480 := by
    apply slotLoop_induct
    intro loop hloop b r hr
    split_ifs at hr with hb
    · rw [Call.pure_inj] at hr
      rw [← hr]
      exact ⟨h, fun _ _ _ hsome => absurd hsome.symm (Option.some_ne_none _)⟩
    obtain ⟨blockData, hread, hr⟩ := Call.bind_eq_pure.mp hr
    have hlt := lt_of_readBlock h.sized hread
    cases hfree : findFree blockData with
    | some i =>
      simp only [hfree, Call.pure_inj] at hr
      rw [← hr]
      refine ⟨h, fun c data j hsome => ?_⟩
      obtain ⟨rfl, -⟩ := Prod.mk.inj (Option.some.inj hsome)
      exact ⟨hb, hlt⟩
    | none =>
      simp only [hfree] at hr
      split_ifs at hr
      · obtain ⟨⟨new, s₁⟩, ha, hr⟩ := Call.bind_eq_pure.mp hr
        obtain ⟨h₁, hnew⟩ := h.allocateBlock ha
        by_cases hz : new = 0
        · simp only [if_pos hz, Call.pure_inj] at hr
          rw [← hr]
          exact ⟨h₁, fun _ _ _ hsome => absurd hsome.symm (Option.some_ne_none _)⟩
        · simp only [if_neg hz, Call.pure_inj] at hr
          rw [← hr]
          refine ⟨h₁.put hlt fun h0 => absurd h0 hb, fun c data j hsome => ?_⟩
          obtain ⟨rfl, -⟩ := Prod.mk.inj (Option.some.inj hsome)
          exact ⟨hz, hnew⟩
      · exact hloop _ _ hr
  exact hloop b (r, s') hs

theorem freeLoop {α : Type} {note : α → α} {a a' : α} (h : Synced s)
    (hf : State.freeLoop note a s b = pure (a', s')) : Synced s' := by
  have hloop : ∀ (i : α × State × ℕ) r, State.freeLoop note i.1 i.2.1 i.2.2 = pure r →
      Synced i.2.1 → Synced r.2 := by
    apply freeLoop_induct
    intro loop hloop i r hr hi
    split_ifs at hr
    · rw [Call.pure_inj] at hr
      rw [← hr]
      exact hi
    · obtain ⟨blockData, hread, hr⟩ := Call.bind_eq_pure.mp hr
      exact hloop (note i.1, _, _) r hr (hi.freeBlock (lt_of_readBlock hi.sized hread))
  exact hloop (a, s, b) (a', s') hf h

theorem writeLoop (h : Synced s) {off : ℕ} {data : List UInt8}
    (hw : s.writeLoop b off data = pure s') : Synced s' := by
  have hloop : ∀ (i : State × ℕ × ℕ × List UInt8) r,
      State.writeLoop i.1 i.2.1 i.2.2.1 i.2.2.2 = pure r → Synced i.1 → Synced r := by
    apply writeLoop_induct
    intro loop hloop i r hr hi
    split_ifs at hr with hmore
    · obtain ⟨blockData, hread, hr⟩ := Call.bind_eq_pure.mp hr
      exact hloop (_, _, 0, _) r hr
        (hi.put (lt_of_readBlock hi.sized hread) fun h0 => absurd h0 hmore.2)
    · rw [Call.pure_inj] at hr
      rw [← hr]
      exact hi
  exact hloop (s, b, off, data) s' hw h

theorem growLoop {n : ℕ} : ∀ {s : State} {e : DirEntry} {last : Cursor} {r : Option DirEntry},
    Synced s → (e.firstBlock ≠ 0 → last.block ≠ 0 ∧ last.block < 20480) →
    Chained.growLoop s e last n = pure (r, s') → Synced s' := by
  induction n with
  | zero =>
    intro s e last r h _ hg
    simp only [Chained.growLoop, Call.pure_inj, Prod.mk.injEq] at hg
    exact hg.2 ▸ h
  | succ n ih =>
    intro s e last r h hlast hg
    unfold Chained.growLoop at hg
    obtain ⟨⟨new, s₁⟩, ha, hg⟩ := Call.bind_eq_pure.mp hg
    obtain ⟨h₁, hnew⟩ := h.allocateBlock ha
    by_cases hz : new = 0
    · simp only [if_pos hz, Call.pure_inj, Prod.mk.injEq] at hg
      exact hg.2 ▸ h₁
    simp only [if_neg hz] at hg
    by_cases hfirst : e.firstBlock = 0
    · simp only [if_pos hfirst] at hg
      exact ih h₁ (fun _ => ⟨hz, hnew⟩) hg
    · simp only [if_neg hfirst] at hg
      obtain ⟨hne, hlt⟩ := hlast hfirst
      exact ih (h₁.put hlt fun h0 => absurd h0 hne) (fun _ => ⟨hz, hnew⟩) hg

theorem grow (h : Synced s) {e : DirEntry} {required : ℕ} {r : Option DirEntry}
    (hg : Chained.grow s e required = pure (r, s')) : Synced s' := by
  unfold Chained.grow at hg
  dsimp only at hg
  split_ifs at hg with hfirst
  · exact h.growLoop (fun hne => absurd hfirst hne) hg
  · obtain ⟨blockData, hread, hg⟩ := Call.bind_eq_pure.mp hg
    obtain ⟨last, hlast, hg⟩ := Call.bind_eq_pure.mp hg
    obtain ⟨heq, -⟩ := last_eq_some (Call.lift_eq_pure.mp hlast)
    have hblock : last.block = e.firstBlock := by rw [heq]
    refine h.growLoop (fun _ => ?_) hg
    rw [hblock]
    exact ⟨hfirst, lt_of_readBlock h.sized hread⟩

/-- Where block zero is taken for the last one to keep, its superblock stays. -/
theorem shrink (h : Synced s) {e e' : DirEntry} {required : ℕ}
    (hs : Chained.shrink s e required = pure (e', s')) : Synced s' := by
  unfold Chained.shrink at hs
  obtain ⟨keep, -, hs⟩ := Call.bind_eq_pure.mp hs
  obtain ⟨blockData, hread, hs⟩ := Call.bind_eq_pure.mp hs
  have hstored : keep = 0 → SuperBlock.ofBlock (setNextBlockNo blockData 0) = s.sb := by
    intro h0
    rw [SuperBlock.ofBlock_setNextBlockNo, readBlock_eq_pure hread, h0]
    exact h.stored
  exact (h.put (lt_of_readBlock h.sized hread) hstored).freeLoop hs

theorem resize (h : Synced s) {e : DirEntry} {required : ℕ} {r : Option DirEntry}
    (hr : Chained.resize s e required = pure (r, s')) : Synced s' := by
  unfold Chained.resize at hr
  split_ifs at hr
  · exact h.grow hr
  · obtain ⟨⟨e', s₁⟩, hs, hr⟩ := Call.bind_eq_pure.mp hr
    simp only [Call.pure_inj, Prod.mk.injEq] at hr
    exact hr.2 ▸ h.shrink hs
  · simp only [Call.pure_inj, Prod.mk.injEq] at hr
    exact hr.2 ▸ h

theorem simplefsCreate (h : Synced s) {now : Int64} {path : Path} {r : ℤ}
    (hc : Chained.simplefsCreate s now path = pure (r, s')) : Synced s' := by
  unfold Chained.simplefsCreate at hc
  split_ifs at hc
  · simp only [Call.pure_inj, Prod.mk.injEq] at hc
    exact hc.2 ▸ h
  obtain ⟨found, -, hc⟩ := Call.bind_eq_pure.mp hc
  cases found with
  | some f =>
    simp only [Call.pure_inj, Prod.mk.injEq] at hc
    exact hc.2 ▸ h
  | none =>
    obtain ⟨⟨place, s₁⟩, hslot, hc⟩ := Call.bind_eq_pure.mp hc
    obtain ⟨h₁, hplace⟩ := h.slotLoop hslot
    cases place with
    | none =>
      simp only [Call.pure_inj, Prod.mk.injEq] at hc
      exact hc.2 ▸ h₁
    | some p =>
      obtain ⟨b, blockData, i⟩ := p
      obtain ⟨hne, hlt⟩ := hplace b blockData i rfl
      simp only [Call.pure_inj, Prod.mk.injEq] at hc
      exact hc.2 ▸ h₁.put hlt fun h0 => absurd h0 hne

theorem simplefsWrite (h : Synced s) {now : Int64} {path : Path} {offset : ℕ} {data : List UInt8}
    {r : ℤ} (hw : Chained.simplefsWrite s now path offset data = pure (r, s')) : Synced s' := by
  unfold Chained.simplefsWrite at hw
  obtain ⟨found, hfind, hw⟩ := Call.bind_eq_pure.mp hw
  cases found with
  | none =>
    simp only [Call.pure_inj, Prod.mk.injEq] at hw
    exact hw.2 ▸ h
  | some f =>
    obtain ⟨e, b⟩ := f
    simp only at hw
    split_ifs at hw
    · simp only [Call.pure_inj, Prod.mk.injEq] at hw
      exact hw.2 ▸ h
    obtain ⟨⟨e₁, s₁⟩, hresize, hw⟩ := Call.bind_eq_pure.mp hw
    have h₁ := h.resize hresize
    cases e₁ with
    | none =>
      simp only [Call.pure_inj, Prod.mk.injEq] at hw
      exact hw.2 ▸ h₁
    | some e₁ =>
      obtain ⟨current, -, hw⟩ := Call.bind_eq_pure.mp hw
      obtain ⟨s₂, hwrite, hw⟩ := Call.bind_eq_pure.mp hw
      obtain ⟨blockData, hread, hw⟩ := Call.bind_eq_pure.mp hw
      have h₂ := h₁.writeLoop hwrite
      simp only [Call.pure_inj, Prod.mk.injEq] at hw
      exact hw.2 ▸ h₂.put (lt_of_readBlock h₂.sized hread) fun h0 =>
        absurd h0 (findEntry_ne_zero hfind)

theorem simplefsUnlink (h : Synced s) {path : Path} {r : ℤ}
    (hu : Chained.simplefsUnlink s path = pure (r, s')) : Synced s' := by
  unfold Chained.simplefsUnlink at hu
  obtain ⟨found, hfind, hu⟩ := Call.bind_eq_pure.mp hu
  cases found with
  | none =>
    simp only [Call.pure_inj, Prod.mk.injEq] at hu
    exact hu.2 ▸ h
  | some f =>
    obtain ⟨e, b⟩ := f
    obtain ⟨⟨_, s₁⟩, hfree, hu⟩ := Call.bind_eq_pure.mp hu
    obtain ⟨blockData, hread, hu⟩ := Call.bind_eq_pure.mp hu
    have h₁ := h.freeLoop hfree
    simp only [Call.pure_inj, Prod.mk.injEq] at hu
    exact hu.2 ▸ h₁.put (lt_of_readBlock h₁.sized hread) fun h0 =>
      absurd h0 (findEntry_ne_zero hfind)

theorem handle (h : Synced s) {now : Int64} {request : Request} {r : ℤ}
    (hr : Chained.handle s now request = pure (r, s')) : Synced s' := by
  cases request with
  | create path => exact h.simplefsCreate hr
  | write path offset data => exact h.simplefsWrite hr
  | unlink path => exact h.simplefsUnlink hr

/-- The program that is started again takes over what the stopped one held. -/
theorem initDisk (h : Synced s) :
    ∃ s', Chained.initDisk s.disk.image = pure s' ∧ s'.sb = s.sb ∧ s.disk.SameImage s'.disk := by
  have himage := Disk.SameImage.ofImage h.ended
  have hsize : s.disk.image.length = diskSize := himage.size.trans h.sized
  have hsized : (Disk.ofImage s.disk.image).Sized := hsize
  have hopen : openDisk s.disk.image = pure (Disk.ofImage s.disk.image) := by
    have hpos : diskSize ≠ 0 := by simp only [diskSize]; omega
    unfold openDisk
    rw [hsize, if_neg hpos, if_neg (not_not.mpr rfl)]
  refine ⟨⟨s.sb, Disk.ofImage s.disk.image⟩, ?_, rfl, himage⟩
  unfold Chained.initDisk
  rw [hopen, pure_bind, readBlock_of_sized hsized (by decide), pure_bind, himage.block, h.stored]
  exact if_pos h.magic

end Synced

theorem State.ended_take {s : State} (h : s.disk.Ended) : s.take.disk.Ended := by
  unfold take
  exact h.writeBlock 0 _

theorem formatDisk_ended {d : Disk} {s : State} (h : formatDisk d = pure s) (hd : d.Ended) :
    s.disk.Ended := by
  have hfree : (formatFree d).Ended := hd.foldl_writeBlock _
  unfold formatDisk at h
  generalize formatFree d = free at h hfree
  obtain ⟨⟨root, s₁⟩, ha, h⟩ := Call.bind_eq_pure.mp h
  have hpos : UInt32.ofNat (maxBlocks - 1) ≠ 0 := by decide
  obtain ⟨-, rfl⟩ := allocateBlock_eq_pure hpos ha
  simp only [Call.pure_inj] at h
  obtain rfl := h
  apply Disk.Ended.writeBlock
  apply Disk.Ended.writeBlock
  exact State.ended_take hfree

theorem formatDisk_stored {d : Disk} {s : State} (h : formatDisk d = pure s) :
    SuperBlock.ofBlock (s.disk.block 0) = s.sb ∧ s.sb.magic = magic := by
  have hfirst := (formatDisk_formatted h).first
  unfold formatDisk at h
  generalize formatFree d = free at h
  obtain ⟨⟨root, s₁⟩, ha, h⟩ := Call.bind_eq_pure.mp h
  have hpos : UInt32.ofNat (maxBlocks - 1) ≠ 0 := by decide
  obtain ⟨rfl, rfl⟩ := allocateBlock_eq_pure hpos ha
  simp only [Call.pure_inj] at h
  obtain rfl := h
  rw [Disk.block_writeBlock_self]
  refine ⟨SuperBlock.ofBlock_copyTo ?_ (show 1 < 65536 by decide) _, rfl⟩
  dsimp only at hfirst ⊢
  rw [hfirst]
  decide

theorem openDisk_sized {image : List UInt8} {disk : Disk} (h : openDisk image = pure disk) :
    disk.Sized ∧ disk.Ended := by
  unfold openDisk at h
  split_ifs at h with h0 hsize
  · obtain ⟨s₀, hformat, h⟩ := Call.bind_eq_pure.mp h
    rw [Call.pure_inj] at h
    obtain ⟨s₁, hformat₁, hsized⟩ :=
      exists_formatDisk (show ((Disk.ofImage image).truncate diskSize).Sized from rfl)
    obtain rfl := Call.pure_inj.mp (hformat.symm.trans hformat₁)
    exact h ▸ ⟨hsized, formatDisk_ended hformat (Disk.ended_truncate _ _)⟩
  · exact absurd h (Call.exit_ne_pure _)
  · rw [Call.pure_inj] at h
    exact h ▸ ⟨not_not.mp hsize, Disk.ended_ofImage image⟩

/-- A start that does not end the program. -/
theorem initDisk_synced {image : List UInt8} {s : State} (h : initDisk image = pure s) :
    Synced s := by
  unfold initDisk at h
  obtain ⟨disk, hdisk, h⟩ := Call.bind_eq_pure.mp h
  obtain ⟨blockData, hread, h⟩ := Call.bind_eq_pure.mp h
  obtain rfl := readBlock_eq_pure hread
  obtain ⟨hsized, hended⟩ := openDisk_sized hdisk
  dsimp only at h
  split_ifs at h with hmagic
  · rw [Call.pure_inj] at h
    obtain rfl := h
    exact ⟨hsized, hended, rfl, hmagic⟩
  · exact absurd h (Call.exit_ne_pure _)

/-- The start on an image file that is not there yet. -/
theorem initDisk_nil : ∃ start, initDisk [] = pure start ∧ Formatted start := by
  obtain ⟨s, hformat, hsized⟩ := exists_formatDisk sized_newImage
  obtain ⟨hstored, hmagic⟩ := formatDisk_stored hformat
  have hopen : openDisk [] = pure s.disk := by
    unfold openDisk
    rw [if_pos (show ([] : List UInt8).length = 0 from rfl), show formatDisk ((Disk.ofImage []).truncate diskSize) = pure s from hformat,
      pure_bind]
  refine ⟨⟨s.sb, s.disk⟩, ?_, formatDisk_formatted hformat⟩
  unfold initDisk
  rw [hopen, pure_bind, readBlock_of_sized hsized (by decide), pure_bind, hstored]
  refine if_pos ?_
  rw [hmagic]
  decide

/-- What happens to the program: it answers a request, or is stopped and started again. -/
inductive Turn
  | request (e : Event)
  | restart

def Turn.event? : Turn → Option Event
  | .request e => some e
  | .restart => none

/-- The turns of a program whose requests are the steps `step`. -/
def Turns (step : State → Event → State → Prop) (s : State) : Turn → State → Prop
  | .request e, s' => step s e s'
  | .restart, s' => initDisk s.disk.image = pure s'

/-- A request that returns, whatever it does. -/
def Returns (s : State) (e : Event) (s' : State) : Prop :=
  handle s e.now e.request = pure (e.result, s')

/-- Whatever the requests were and whatever became of the chains, the image keeps its size, and
starting from it again gives the superblock of the stopped program and the same image. -/
theorem restarts_keep {image : List UInt8} {start s : State} {turns : List Turn}
    (hstart : initDisk image = pure start) (hrun : History (Turns Returns) start turns s) :
    s.disk.size = diskSize ∧ ∃ s', initDisk s.disk.image = pure s' ∧ s'.sb = s.sb ∧
      s'.disk.image = s.disk.image := by
  have hsynced : Synced s := by
    apply hrun.invariant_state (initDisk_synced hstart)
    intro s turn s' hs hturn
    cases turn with
    | request e => exact hs.handle hturn
    | restart => exact initDisk_synced hturn
  obtain ⟨s', hinit, hsb, himage⟩ := hsynced.initDisk
  exact ⟨hsynced.sized, s', hinit, hsb, himage.image⟩

/-- One byte written to a new file joins the file to the free list, and the image still serves the next
start. -/
theorem restarts_keep_pathA : ∃ start s₁ s s', initDisk [] = pure start ∧
    handle start 0 (.create pathA) = pure (0, s₁) ∧
    handle s₁ 0 (.write pathA 0 [65]) = pure (1, s) ∧
    initDisk s.disk.image = pure s' ∧ s'.sb = s.sb := by
  have hp : Short pathA := ⟨by decide, by decide⟩
  obtain ⟨start, hstart, hformat⟩ := initDisk_nil
  have hsized := (initDisk_synced hstart).sized
  obtain ⟨e, hname, hfirst, hcount, hcreate⟩ := hformat.create hsized hp 0
  have hone := hformat.oneFile hsized hname hfirst hcount
  obtain ⟨e', s, hwrite, -⟩ := hone.write hp.not_root 65 0
  have hrun : History (Turns Returns) start [Turn.request ⟨.create pathA, 0, 0⟩,
      .request ⟨.write pathA 0 [65], 0, 1⟩] s :=
    (Run.start.step (Turn.request _) hcreate).step (.request _) hwrite
  obtain ⟨-, s', hagain, hsb, -⟩ := restarts_keep hstart hrun
  exact ⟨start, _, s, s', hstart, hcreate, hwrite, hagain, hsb⟩

end SimpleFS.Chained
