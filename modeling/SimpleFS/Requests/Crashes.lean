import SimpleFS.Requests.Ordering
import SimpleFS.Requests.Space

/-! What a crash leaves behind, wherever it cuts off the `write_block` calls of a request, and what
mounting it again finds. -/
namespace SimpleFS
open Bitmap

namespace Disk

/-- The image file on the host. -/
def image (d : Disk) : List UInt8 := (List.range d.size).map d.byte

/-- Every block that an inode in use refers to is marked used. -/
def Marked (d : Disk) : Prop := ∀ n, d.Live n → ∀ b ∈ (d.inode n).refs d, d.bit b = true

/-- `c` is what a crash can leave on the way from `d` to `d'`: some first part of the `write_block`
calls has been made. -/
def Crash (d d' c : Disk) : Prop :=
  ∃ rest made, d'.writes = rest ++ (made ++ d.writes) ∧ c = d.replay made

theorem Trail.of_crash {P : Disk → Prop} {d d' c : Disk} (h : Trail P d d') (hc : Crash d d' c) :
    P c := by
  obtain ⟨ws, hws, h⟩ := h
  obtain ⟨rest, made, hcut, rfl⟩ := hc
  rw [hws, ← List.append_assoc] at hcut
  rw [List.append_cancel_right hcut] at h
  exact h.of_cut

theorem block_image {d : Disk} (hd : d.Sized) {b : ℕ} (hb : b < 20480) :
    (ofImage d.image).block b = d.block b := by
  have hs : d.size = 10485760 := hd
  apply Vector.ext_byteAt
  intro i hi
  simp only [block, Vector.byteAt_ofFn _ hi, ofImage, image]
  simp only [blockSize] at hi ⊢
  rw [List.getD_eq_getElem?_getD, List.getElem?_map, List.getElem?_range (by omega)]
  rfl

/-- Two disks with the same blocks are marked alike. -/
theorem Marked.congr {d d' : Disk} (h : d.Marked) (hblock : ∀ b < 20480, d'.block b = d.block b)
    (hind : ∀ n, d.Live n → ∀ b ∈ (d.inode n).refs d, b < 20480) : d'.Marked := by
  have hinode : ∀ n, InodeNo n → d'.inode n = d.inode n := fun n hn =>
    inode_eq_of_block_eq (hblock _ hn.recordBlock_lt)
  intro n hn b hb
  have hold : d.Live n := ⟨hn.1, by rw [← hinode n hn.1]; exact hn.2⟩
  rw [hinode n hn.1, Inode.refs_congr fun hi =>
    hblock _ (hind n hold _ (Inode.indirectBlock_mem_refs hi))] at hb
  have hlt := hind n hold b hb
  rw [bit, hblock _ (by simp only [blockSize]; omega)]
  exact h n hold b hb

end Disk

/-- Mounting an image with a superblock reads it and writes nothing. -/
theorem mount_image {c : Disk} (hc : c.Sized) (hl : Layout (SuperBlock.fromBytes (c.block 0)))
    (later : Int64) : mount c.image later =
      some ⟨.ofImage c.image, SuperBlock.fromBytes (c.block 0)⟩ := by
  have hs : c.size = 10485760 := hc
  have hsize : (Disk.ofImage c.image).Sized := by
    rw [Disk.Sized, Disk.ofImage, Disk.image, List.length_map, List.length_range]
    exact hc
  have hread : readSuperblock (Disk.ofImage c.image) = some (SuperBlock.fromBytes (c.block 0)) := by
    rw [readSuperblock, hsize.readBlock (by decide), Option.bind_eq_bind, Option.bind_some,
      Disk.block_image hc (by decide)]
    exact if_pos hl.valid
  rw [mount, if_neg (by rw [hsize]; decide), hread]

/-- The requests on inodes in use: a directory for the name of an entry, and no write of 2 GiB or
more, which the kernel does not send. -/
def Fs.Addresses (fs : Fs) : Request → Prop
  | .create parent name | .mkdir parent name | .rmdir parent name | .unlink parent name =>
    fs.disk.IsDirectory parent ∧ EntryName name
  | .write ino _ data => fs.disk.Live ino ∧ data.length < 2 ^ 31
  | .setattr ino _ _ => fs.disk.Live ino
  | _ => True

/-- Wherever the request is cut off, what is left can be mounted, and every block of an inode in use
is marked used. -/
def CrashSafe (fs : Fs) (r : Request) (now : ℕ → Int64) : Prop :=
  ∀ reply fs' c, fs.attempt now r = some (reply, fs') → fs.disk.Crash fs'.disk c →
    ∀ later, ∃ fs'', mount c.image later = some fs'' ∧ fs''.disk.Marked

/-- The request takes out an entry and frees blocks of the inode that it names. -/
def Fs.Releases (fs : Fs) : Request → Prop
  | .unlink parent name => ∃ e s,
    dirFind fs.disk (fs.disk.inode parent) (nameOr "" name) = some (some (e, s)) ∧
      (fs.disk.inode e.inode.toNat).isDir = false ∧
      (fs.disk.inode e.inode.toNat).refs fs.disk ≠ []
  | .rmdir parent name => ∃ e s,
    dirFind fs.disk (fs.disk.inode parent) (nameOr "" name) = some (some (e, s)) ∧
      (fs.disk.inode e.inode.toNat).isDir = true ∧
      ((fs.disk.inode e.inode.toNat).entries fs.disk).length ≤ 2 ∧
      (fs.disk.inode e.inode.toNat).blocks fs.disk ≠ []
  | _ => False

theorem Disk.Recoverable.mount {c : Disk} (h : c.Recoverable) (later : Int64) :
    ∃ fs, SimpleFS.mount c.image later = some fs ∧ fs.disk.Marked := by
  refine ⟨_, mount_image h.sized h.layout later, ?_⟩
  have hmarked : c.Marked := fun n hn => h.owned.used hn
  refine hmarked.congr (fun b hb => Disk.block_image h.sized hb) fun n hn b hb => ?_
  exact (h.owned.range n b (hn.held ▸ hb)).2.1

section Cut

variable {fs fs' : Fs} {now : ℕ → Int64} {r : Request}

private theorem of_map {answer : Option (Reply × Fs)} {reply : Option Reply}
    (h : (answer.map fun x => (some x.1, x.2)) = some (reply, fs')) :
    ∃ a, answer = some (a, fs') := by
  obtain ⟨⟨a, fs₁⟩, ha, heq⟩ := Option.map_eq_some_iff.mp h
  simp only [Prod.mk.injEq] at heq
  exact ⟨a, heq.2 ▸ ha⟩

/-- A request that is answered was attempted. -/
theorem attempt_of_handle {reply : Reply} (h : fs.handle now r = some (reply, fs')) :
    fs.attempt now r = some (some reply, fs') :=
  Fs.answered_eq_some.mp ((fs.handle_eq_answered now r).symm.trans h)

theorem attempt_trail (hs : BlockSound fs) (hd : Named fs.disk) (hr : fs.Addresses r)
    (hkeep : ¬ fs.Releases r) {reply : Option Reply} (h : fs.attempt now r = some (reply, fs')) :
    fs.disk.Trail Disk.Recoverable fs'.disk := by
  have hc := hs.toConsistent
  have hl : Layout (SuperBlock.fromBytes (fs.disk.block 0)) := by
    rw [show SuperBlock.fromBytes (fs.disk.block 0) = fs.sb from hs.synced]
    exact hc.layout
  have hsame : fs' = fs → fs.disk.Trail Disk.Recoverable fs'.disk := by
    rintro rfl
    exact .refl (hc.recoverable hl)
  have hsafe := hs.reserved.stepSafe r
  cases r with
  | mkdir p name => exact mkdirAttempt_trail hc hl hr.1.1 hsafe h
  | write n offset data => exact writeAttempt_trail hc hl hr.1 (hs.mapped n hr.1) hr.2 hsafe h
  | getattr ino =>
    obtain ⟨a, h⟩ := of_map h
    exact hsame (Fs.getattr_unchanged h)
  | readdir ino offset full =>
    obtain ⟨a, h⟩ := of_map h
    exact hsame (Fs.readdir_unchanged h)
  | lookup p name =>
    obtain ⟨a, h⟩ := of_map h
    exact hsame (Fs.lookup_unchanged h)
  | openFile ino flags uid gid =>
    obtain ⟨a, h⟩ := of_map h
    exact hsame (Fs.openFile_unchanged h)
  | read ino offset size =>
    obtain ⟨a, h⟩ := of_map h
    exact hsame (Fs.read_unchanged h)
  | setattr n mode size =>
    obtain ⟨a, h⟩ := of_map h
    exact @setattr_trail fs fs' n now hc hl hr mode size a h
  | create p name =>
    obtain ⟨a, h⟩ := of_map h
    exact create_trail hc hl hr.1.1 hsafe h
  | unlink p name =>
    obtain ⟨a, h⟩ := of_map h
    refine unlink_trail hc hl hr.1.1 hr.1.2 (hd.live_of_nameOr hr.1 hr.2) (fun e s hfind hfile => ?_) h
    by_contra hrefs
    exact hkeep ⟨e, s, hfind, hfile, hrefs⟩
  | rmdir p name =>
    obtain ⟨a, h⟩ := of_map h
    refine rmdir_trail hc hl hr.1.1 (hd.live_of_nameOr hr.1 hr.2)
      (fun e s hfind hdir hlen => ?_) h
    by_contra hblocks
    exact hkeep ⟨e, s, hfind, hdir, hlen, hblocks⟩

end Cut

section Release

variable {d d' d'' : Disk} {sb sb' : SuperBlock} {b : ℕ}

/-- The first write on the way from `d` to `d'` clears the bit of block `b`. -/
def Disk.Unmarks (d d' : Disk) (b : ℕ) : Prop :=
  ∃ rest k buf, d'.writes = rest ++ (k, buf) :: d.writes ∧ 1 ≤ k ∧ k < 6 ∧
    (d.writeBlock k buf).bit b = false

theorem Disk.Unmarks.extend (h : d.Unmarks d' b) (ht : d'.Trail (fun _ => True) d'') :
    d.Unmarks d'' b := by
  obtain ⟨rest, k, buf, hrest, hk⟩ := h
  obtain ⟨ws, hws, -⟩ := ht
  exact ⟨ws ++ rest, k, buf, by rw [hws, hrest, List.append_assoc], hk⟩

private theorem markFree_writes (h : markFree d sb b = some (d', sb')) :
    d.Trail (fun _ => True) d' := by
  obtain ⟨buf, -, h⟩ := Option.bind_eq_some_iff.mp h
  simp only [Option.some.injEq, Prod.mk.injEq] at h
  exact h.1 ▸ ((Disk.Trail.refl trivial).write trivial).write trivial

/-- Of the two writes that free a block the first clears the bit. -/
private theorem markFree_unmarks (hd : d.Sized) (hb : b < 20480)
    (h : markFree d sb b = some (d', sb')) : d.Unmarks d' b := by
  have hblk : 1 + b / 8 / blockSize < 6 := by
    simp only [blockSize]
    omega
  obtain ⟨d₂, hspec, hu⟩ := markFree_spec hd sb hb
  rw [h] at hspec
  simp only [Option.some.injEq, Prod.mk.injEq] at hspec
  obtain ⟨rfl, rfl⟩ := hspec
  simp only [markFree, updateBit, locate, hd.readBlock (hblk.trans (by decide)), Option.bind_eq_bind,
    Option.bind_some, Option.some.injEq, Prod.mk.injEq, and_true] at h
  generalize ((d.block (1 + b / 8 / blockSize)).modifyByte (b / 8 % blockSize) fun x =>
    x &&& ~~~UInt8.bitMask (b % 8)) = buf at h
  subst h
  refine ⟨[(0, _)], 1 + b / 8 / blockSize, buf, rfl, Nat.le_add_right _ _, hblk, ?_⟩
  have hbit := hu.bit b hb
  rw [writeSuperblock, bit_writeBlock_of_le _ _ (Or.inr rfl) hb, if_pos rfl] at hbit
  exact hbit

private theorem writeInode_writes {i : Inode} (h : writeInode d sb i = some d') :
    d.Trail (fun _ => True) d' := by
  obtain ⟨buf, -, h⟩ := Option.bind_eq_some_iff.mp h
  exact Option.some.inj h ▸ (Disk.Trail.refl trivial).write trivial

private theorem dirRemoveEntry_writes {dir dir' : Inode} {name : String} {time : Int64}
    {r : Except String Unit} (h : dirRemoveEntry d sb dir name time = some (r, d', dir')) :
    d.Trail (fun _ => True) d' := by
  obtain ⟨found, -, h⟩ := Option.bind_eq_some_iff.mp h
  cases found with
  | none =>
    simp only [Option.some.injEq, Prod.mk.injEq] at h
    exact h.2.1 ▸ .refl trivial
  | some slot =>
    obtain ⟨buf, -, h⟩ := Option.bind_eq_some_iff.mp h
    obtain ⟨d₁, hput, h⟩ := Option.bind_eq_some_iff.mp h
    simp only [Option.some.injEq, Prod.mk.injEq] at h
    exact h.2.1 ▸ ((Disk.Trail.refl trivial).write trivial).trans (writeInode_writes hput)

private theorem freeLoop_writes {i : Inode} {ks : List ℕ} : ∀ {d d' : Disk} {sb sb' : SuperBlock},
    ks.foldlM (Fs.freeDataBlock i) (d, sb) = some (d', sb') → d.Trail (fun _ => True) d' := by
  induction ks with
  | nil =>
    intro d d' sb sb' h
    simp only [List.foldlM_nil, Option.pure_def, Option.some.injEq, Prod.mk.injEq] at h
    exact h.1 ▸ .refl trivial
  | cons k ks ih =>
    intro d d' sb sb' h
    rw [List.foldlM_cons] at h
    obtain ⟨⟨d₁, sb₁⟩, hstep, h⟩ := Option.bind_eq_some_iff.mp h
    refine Disk.Trail.trans ?_ (ih h)
    obtain ⟨q, -, hstep⟩ := Option.bind_eq_some_iff.mp hstep
    cases q with
    | none =>
      simp only [Option.some.injEq, Prod.mk.injEq] at hstep
      exact hstep.1 ▸ .refl trivial
    | some b => exact markFree_writes hstep

/-- When there is a block to free, the freeing begins with the bit of such a block. -/
private theorem freeLoop_unmarks {i : Inode} (hd : d.Sized) (hon : i.OnDisk d) {ks : List ℕ}
    (hks : ∀ k ∈ ks, k < i.blockCount.toNat) (hsome : ∃ k ∈ ks, i.ptr d k ≠ 0)
    (h : ks.foldlM (Fs.freeDataBlock i) (d, sb) = some (d', sb')) :
    ∃ b ∈ i.blocks d, d.Unmarks d' b := by
  induction ks generalizing sb with
  | nil => simp at hsome
  | cons k ks ih =>
    rw [List.foldlM_cons] at h
    obtain ⟨⟨d₁, sb₁⟩, hstep, h⟩ := Option.bind_eq_some_iff.mp h
    rw [Fs.freeDataBlock, hon.getBlock hd, Option.bind_eq_bind, Option.bind_some] at hstep
    by_cases h0 : i.ptr d k = 0
    · rw [Inode.pointer, if_pos h0] at hstep
      simp only [Option.some.injEq, Prod.mk.injEq] at hstep
      obtain ⟨rfl, rfl⟩ := hstep
      obtain ⟨j, hj, hj0⟩ := hsome
      have hmem : j ∈ ks := (List.mem_cons.mp hj).resolve_left fun heq => hj0 (heq ▸ h0)
      exact ih (fun j hj => hks j (List.mem_cons_of_mem k hj)) ⟨j, hmem, hj0⟩ h
    · rw [Inode.pointer, if_neg h0] at hstep
      have hmem := Inode.mem_blocks_of_ptr (hks k List.mem_cons_self) h0
      have hfirst := markFree_unmarks hd (hon _ (Inode.mem_refs_of_mem_blocks hmem)) hstep
      exact ⟨_, hmem, hfirst.extend (freeLoop_writes h)⟩

theorem freeDataBlocks_unmarks {i : Inode} (hd : d.Sized) (hon : i.OnDisk d)
    (hsome : i.blocks d ≠ []) (h : Fs.freeDataBlocks d sb i = some (d', sb')) :
    ∃ b ∈ i.blocks d, d.Unmarks d' b := by
  obtain ⟨b, hb⟩ := List.exists_mem_of_ne_nil _ hsome
  obtain ⟨h0, k, hk, rfl⟩ := Inode.mem_blocks.mp hb
  exact freeLoop_unmarks hd hon (fun j hj => List.mem_range.mp hj) ⟨k, List.mem_range.mpr hk, h0⟩ h

/-- A crash after a write that clears the bit of a block in use. -/
theorem not_crashSafe_of_unmarks {fs fs' : Fs} (hs : BlockSound fs) {n : ℕ} (hn : fs.disk.Live n)
    (hb : b ∈ (fs.disk.inode n).refs fs.disk) {r : Request} {now : ℕ → Int64} {reply : Option Reply}
    (h : fs.attempt now r = some (reply, fs')) (hu : fs.disk.Unmarks fs'.disk b) :
    ¬ CrashSafe fs r now := by
  intro hsafe
  obtain ⟨rest, k, buf, hwrites, hk, hk6, hfree⟩ := hu
  have hc := hs.toConsistent
  have hsized : (fs.disk.writeBlock k buf).Sized := hc.sized.writeBlock (by omega) buf
  have hlayout : Layout (SuperBlock.fromBytes ((fs.disk.writeBlock k buf).block 0)) := by
    rw [fs.disk.block_writeBlock_of_ne buf (by omega),
      show SuperBlock.fromBytes (fs.disk.block 0) = fs.sb from hs.synced]
    exact hc.layout
  have hkeep : ∀ c, 6 ≤ c → c < 20480 →
      (Disk.ofImage (fs.disk.writeBlock k buf).image).block c = fs.disk.block c := fun c h6 hlt => by
    rw [Disk.block_image hsized hlt, fs.disk.block_writeBlock_of_ne buf (by omega)]
  obtain ⟨fs'', hmount, hmarked⟩ := hsafe reply fs' (fs.disk.writeBlock k buf) h
    ⟨rest, [(k, buf)], hwrites, rfl⟩ 0
  rw [mount_image hsized hlayout] at hmount
  obtain rfl := Option.some.inj hmount
  have hinode : (Disk.ofImage (fs.disk.writeBlock k buf).image).inode n = fs.disk.inode n :=
    Disk.inode_eq_of_block_eq (hkeep _ (six_le_recordBlock n) hn.1.recordBlock_lt)
  have hrange := fun c hc' => hc.owned.range n c (hn.held ▸ hc')
  have hlt := (hrange b hb).2.1
  have hbit := hmarked n ⟨hn.1, by rw [hinode]; exact hn.2⟩ b (by
    rw [hinode, Inode.refs_congr fun hi => ?_]
    · exact hb
    · obtain ⟨hlow, hlt, -⟩ := hrange _ (Inode.indirectBlock_mem_refs hi)
      exact hkeep _ (by omega) hlt)
  rw [Disk.bit, Disk.block_image hsized (by simp only [blockSize]; omega), ← Disk.bit, hfree] at hbit
  cases hbit

section Removals

variable {fs : Fs} {p : ℕ} {name : ByteArray} {e : DirEntry} {s : ℕ × ℕ}

theorem unlink_unmarks (hc : Consistent fs) (hp : fs.disk.Live p)
    (hlive : ∀ e ∈ (fs.disk.inode p).entries fs.disk, e.named (Fs.nameOr "" name) = true →
      fs.disk.Live e.inode.toNat)
    (hfind : dirFind fs.disk (fs.disk.inode p) (Fs.nameOr "" name) = some (some (e, s)))
    (hfile : (fs.disk.inode e.inode.toNat).isDir = false)
    (hrefs : (fs.disk.inode e.inode.toNat).refs fs.disk ≠ []) (now : ℕ → Int64) :
    ∃ reply fs', fs.unlink p name now = some (reply, fs') ∧
      ∃ b ∈ (fs.disk.inode e.inode.toNat).refs fs.disk, fs.disk.Unmarks fs'.disk b := by
  obtain ⟨reply, fs', h⟩ := unlink_some hc hp hfind hlive now
  refine ⟨reply, fs', h, ?_⟩
  have hplaced := hc.placed hp
  obtain ⟨pre, post, hfirst⟩ := dirFind_eq_some hplaced.sized hplaced.onDisk hfind
  have hce := hlive e hfirst.mem_entries hfirst.named
  have hcplaced := hc.placed hce
  rw [Fs.unlink, Consistent.asU32_of_inodeNo hp.1, hc.readInode hp.1, Option.bind_eq_bind,
    Option.bind_some, show dirFind fs.disk (fs.disk.inode p) ((String.fromUTF8? name).getD "") = _
      from hfind, Option.bind_eq_bind, Option.bind_some] at h
  dsimp only at h
  rw [hc.readInode hce.1, Option.bind_eq_bind, Option.bind_some, if_neg (by simp [hfile])] at h
  obtain ⟨⟨d₁, sb₁⟩, hfree, h⟩ := Option.bind_eq_some_iff.mp h
  obtain ⟨⟨d₂, sb₂⟩, hindirect, h⟩ := Option.bind_eq_some_iff.mp h
  obtain ⟨d₃, hput, h⟩ := Option.bind_eq_some_iff.mp h
  obtain ⟨⟨result, d₄, dir'⟩, hremove, h⟩ := Option.bind_eq_some_iff.mp h
  have hrest := (writeInode_writes hput).trans (dirRemoveEntry_writes hremove)
  have hend : fs'.disk = d₄ := by
    cases result with
    | error _ => simp at h
    | ok u =>
      simp only [Option.some.injEq, Prod.mk.injEq] at h
      rw [← h.2]
  rw [hend]
  by_cases hblocks : (fs.disk.inode e.inode.toNat).blocks fs.disk = []
  · rw [freeDataBlocks_of_blocks_eq_nil hc.sized hcplaced.onDisk hblocks] at hfree
    simp only [Option.some.injEq, Prod.mk.injEq] at hfree
    obtain ⟨rfl, rfl⟩ := hfree
    have hi : (fs.disk.inode e.inode.toNat).indirectBlock ≠ 0 := by
      intro hi
      rw [Inode.refs, hblocks, if_pos hi] at hrefs
      exact hrefs rfl
    have hmem := Inode.indirectBlock_mem_refs (d := fs.disk) hi
    rw [Fs.freeIndirectBlock, if_pos hi] at hindirect
    exact ⟨_, hmem, (markFree_unmarks hc.sized (hcplaced.onDisk _ hmem) hindirect).extend hrest⟩
  · obtain ⟨b, hb, hu⟩ := freeDataBlocks_unmarks hc.sized hcplaced.onDisk hblocks hfree
    refine ⟨b, Inode.mem_refs_of_mem_blocks hb, (hu.extend ?_).extend hrest⟩
    unfold Fs.freeIndirectBlock at hindirect
    split_ifs at hindirect with hi
    · exact markFree_writes hindirect
    · simp only [Option.some.injEq, Prod.mk.injEq] at hindirect
      exact hindirect.1 ▸ .refl trivial

theorem rmdir_unmarks (hc : Consistent fs) (hp : fs.disk.Live p)
    (hlive : ∀ e ∈ (fs.disk.inode p).entries fs.disk, e.named (Fs.nameOr "" name) = true →
      fs.disk.Live e.inode.toNat)
    (hfind : dirFind fs.disk (fs.disk.inode p) (Fs.nameOr "" name) = some (some (e, s)))
    (hdir : (fs.disk.inode e.inode.toNat).isDir = true)
    (hlen : ((fs.disk.inode e.inode.toNat).entries fs.disk).length ≤ 2)
    (hblocks : (fs.disk.inode e.inode.toNat).blocks fs.disk ≠ []) (now : ℕ → Int64) :
    ∃ reply fs', fs.rmdir p name now = some (reply, fs') ∧
      ∃ b ∈ (fs.disk.inode e.inode.toNat).refs fs.disk, fs.disk.Unmarks fs'.disk b := by
  obtain ⟨reply, fs', h⟩ := rmdir_some hc hp hfind hlive now
  refine ⟨reply, fs', h, ?_⟩
  have hplaced := hc.placed hp
  obtain ⟨pre, post, hfirst⟩ := dirFind_eq_some hplaced.sized hplaced.onDisk hfind
  have hce := hlive e hfirst.mem_entries hfirst.named
  have hcplaced := hc.placed hce
  rw [Fs.rmdir, Consistent.asU32_of_inodeNo hp.1, hc.readInode hp.1, Option.bind_eq_bind,
    Option.bind_some, show dirFind fs.disk (fs.disk.inode p) ((String.fromUTF8? name).getD "") = _
      from hfind, Option.bind_eq_bind, Option.bind_some] at h
  dsimp only at h
  rw [hc.readInode hce.1, Option.bind_eq_bind, Option.bind_some, if_neg (by simp [hdir]),
    dirLookup_eq hcplaced.sized hcplaced.onDisk, Option.bind_eq_bind, Option.bind_some,
    Inode.length_filter_slots, if_neg (by omega)] at h
  obtain ⟨⟨d₁, sb₁⟩, hfree, h⟩ := Option.bind_eq_some_iff.mp h
  obtain ⟨⟨result, d₂, dir'⟩, hremove, h⟩ := Option.bind_eq_some_iff.mp h
  obtain ⟨b, hb, hu⟩ := freeDataBlocks_unmarks hc.sized hcplaced.onDisk hblocks hfree
  refine ⟨b, Inode.mem_refs_of_mem_blocks hb, ?_⟩
  cases result with
  | error _ => simp at h
  | ok u =>
    obtain ⟨d₃, hput, h⟩ := Option.bind_eq_some_iff.mp h
    simp only [Option.some.injEq, Prod.mk.injEq] at h
    obtain ⟨-, rfl⟩ := h
    exact (hu.extend (dirRemoveEntry_writes hremove)).extend (writeInode_writes hput)

end Removals

end Release

/-- A request survives a crash at every point if and only if it removes nothing that has blocks: the
removals clear the bits first, and the link count last. -/
theorem crashSafe_iff {fs : Fs} (hs : BlockSound fs) (ht : TreeSound fs.disk) {r : Request}
    (hr : fs.Addresses r) (now : ℕ → Int64) : CrashSafe fs r now ↔ ¬ fs.Releases r := by
  constructor
  · intro hsafe hrel
    cases r with
    | unlink p name =>
      obtain ⟨e, s, hfind, hfile, hrefs⟩ := hrel
      have hlive := ht.live_of_nameOr hr.1 hr.2
      obtain ⟨reply, fs', h, b, hb, hu⟩ := unlink_unmarks hs.toConsistent hr.1.1 hlive hfind hfile
        hrefs now
      obtain ⟨pre, post, hfirst⟩ := dirFind_eq_some hs.sized (hs.placed hr.1.1).onDisk hfind
      exact not_crashSafe_of_unmarks hs (hlive e hfirst.mem_entries hfirst.named) hb
        (attempt_of_handle (r := .unlink p name) h) hu hsafe
    | rmdir p name =>
      obtain ⟨e, s, hfind, hdir, hlen, hblocks⟩ := hrel
      have hlive := ht.live_of_nameOr hr.1 hr.2
      obtain ⟨reply, fs', h, b, hb, hu⟩ := rmdir_unmarks hs.toConsistent hr.1.1 hlive hfind hdir
        hlen hblocks now
      obtain ⟨pre, post, hfirst⟩ := dirFind_eq_some hs.sized (hs.placed hr.1.1).onDisk hfind
      exact not_crashSafe_of_unmarks hs (hlive e hfirst.mem_entries hfirst.named) hb
        (attempt_of_handle (r := .rmdir p name) h) hu hsafe
    | _ => exact hrel
  · intro hkeep reply fs' c h hcrash
    exact ((attempt_trail hs ht.toNamed hr hkeep h).of_crash hcrash).mount

theorem crashSafe_create : ∃ fs : Fs,
    CrashSafe fs (.create 1 "a".toByteArray) fun _ => 0 := by
  obtain ⟨fs, h, hs, ht⟩ := exists_sound [] List.nodup_nil (by simp)
  exact ⟨fs, (crashSafe_iff hs ht
    (show fs.Addresses (.create 1 "a".toByteArray) from ⟨h.isDirectory_root, entryName_a⟩) _).mpr id⟩

/-- The removal of a file of one block. -/
theorem not_crashSafe_unlink : ∃ fs : Fs, BlockSound fs ∧ TreeSound fs.disk ∧
    fs.Addresses (.unlink 1 "a".toByteArray) ∧
      ¬ CrashSafe fs (.unlink 1 "a".toByteArray) fun _ => 0 := by
  obtain ⟨-, -, fs, -, s, -, -, -, -, -, -, -, -, hs, ht, hroot, hn, hfind, hfile, hrefs⟩ :=
    exists_written
  have hname : Fs.nameOr "" "a".toByteArray = "a" := by
    rw [Fs.nameOr, fromUTF8?_toByteArray]
    rfl
  refine ⟨fs, hs, ht, ⟨hroot, entryName_a⟩, ?_⟩
  rw [← hname] at hfind
  obtain ⟨reply, fs', h, b, hb, hu⟩ := unlink_unmarks hs.toConsistent hroot.1
    (ht.live_of_nameOr hroot entryName_a) hfind hfile hrefs fun _ => 0
  exact not_crashSafe_of_unmarks hs hn hb (attempt_of_handle (r := .unlink 1 "a".toByteArray) h) hu

end SimpleFS
