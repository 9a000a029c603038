import SimpleFS.Requests.Attributes
import SimpleFS.Requests.Runs

/-! Permissions: what `open` asks of the mode, and which mode an inode has after a run. -/
namespace SimpleFS
open Runs

/-- The permission bits of a mode. -/
def permBits (mode : UInt16) : UInt16 := mode &&& 0o777

/-- The three bits of the class of the requester: owner, group or other. -/
def classBits (perm : UInt16) (inode : Inode) (uid gid : UInt32) : UInt16 :=
  if uid = inode.uid.toUInt32 then perm >>> 6
  else if gid = inode.gid.toUInt32 then perm >>> 3
  else perm

/-- `O_RDONLY` or `O_RDWR`. -/
def asksRead (flags : UInt32) : Bool := flags &&& 3 == 0 || flags &&& 3 == 2

/-- `O_WRONLY` or `O_RDWR`. -/
def asksWrite (flags : UInt32) : Bool := flags &&& 3 == 1 || flags &&& 3 == 2

/-- The class of the requester has the bits for what the flags ask. -/
def Grants (perm : UInt16) (inode : Inode) (flags uid gid : UInt32) : Prop :=
  (asksRead flags = true → classBits perm inode uid gid &&& 4 ≠ 0) ∧
    (asksWrite flags = true → classBits perm inode uid gid &&& 2 ≠ 0)

/-- `open` lets a requester in only if the permission bits `perm` grant what the flags ask. -/
def OpenEnforces (fs : Fs) (n : ℕ) (perm : UInt16) (flags uid gid : UInt32) : Prop :=
  ∀ fh fl fs', fs.openFile n flags uid gid = some (.opened fh fl, fs') →
    Grants perm (fs.disk.inode n) flags uid gid

/-- The permission bits that every inode should have: those it was created with, or those of the
last `setattr` on it with a mode. -/
def notePerm (fs : Fs) (e : Event) (fs' : Fs) (perm : ℕ → UInt16) (m : ℕ) : UInt16 :=
  match e.request with
  | .create _ _ => if fs'.disk.Live m ∧ ¬ fs.disk.Live m then 0o644 else perm m
  | .mkdir _ _ => if fs'.disk.Live m ∧ ¬ fs.disk.Live m then 0o755 else perm m
  | .setattr n (some mode) _ => if m = n then (mode &&& 0o777).toUInt16 else perm m
  | _ => perm m

section Mode

variable {fs fs' : Fs} {m : ℕ}

theorem permBits_setMode (mode : UInt16) (newMode : UInt32) :
    permBits ((mode &&& 0xF000) ||| (newMode &&& 0o777).toUInt16) =
      (newMode &&& 0o777).toUInt16 := by
  have hbits : ∀ k < 16, (0xF000#16).getLsbD k = true → (0o777#16).getLsbD k = false := by decide
  apply UInt16.toBitVec_inj.mp
  apply BitVec.eq_of_getLsbD_eq
  intro k hk
  cases hlowbit : (0o777#16).getLsbD k with
  | false => simp [permBits, hlowbit]
  | true =>
    have hhigh : (0xF000#16).getLsbD k = false := by
      by_contra htrue
      rw [hbits k hk (by simpa using htrue)] at hlowbit
      cases hlowbit
    simp [permBits, hhigh, hlowbit]

theorem permBits_createdInode (n : ℕ) (now : Int64) : permBits (createdInode n now).mode = 0o644 :=
  (by decide : permBits (sIfReg ||| 0o644) = 0o644)

theorem permBits_madeInode (n b : ℕ) (now : Int64) : permBits (madeInode n b now).mode = 0o755 :=
  (by decide : permBits (sIfDir ||| 0o755) = 0o755)

/-- Every inode in use was in use before, with the same mode. -/
def KeepsModes (fs fs' : Fs) : Prop :=
  ∀ m, fs'.disk.Live m → fs.disk.Live m ∧ (fs'.disk.inode m).mode = (fs.disk.inode m).mode

/-- The inodes that a footprint does not name keep their modes. -/
theorem Footprint.keepsModes {recs own new freed : List ℕ}
    (h : Footprint fs fs' recs own new freed) (hrecs : ∀ m ∈ recs, fs'.disk.Live m →
      fs.disk.Live m ∧ (fs'.disk.inode m).mode = (fs.disk.inode m).mode) : KeepsModes fs fs' := by
  intro m hm
  by_cases hmem : m ∈ recs
  · exact hrecs m hmem hm
  · exact ⟨(h.live_iff hmem).mp hm, by rw [h.inode m hm.1 hmem]⟩

theorem Gone.keepsModes {p c : ℕ} {name : String} {now : Int64} {freed : List ℕ}
    (h : Gone fs fs' p c name now freed) (hp : fs.disk.Live p) : KeepsModes fs fs' := by
  refine h.footprint.keepsModes fun m hmem hm => ?_
  have hmc : m ≠ c := fun hmc => h.unused (hmc ▸ hm)
  obtain rfl : m = p := by simpa [hmc] using hmem
  exact ⟨hp, by rw [h.inode hmc]⟩

/-- What a new inode does to the modes. -/
theorem permBits_of_new {n : ℕ} {mode : UInt16} {perm : ℕ → UInt16} {recs own new freed : List ℕ}
    (h : Footprint fs fs' recs own new freed) (hn : ¬ fs.disk.Live n)
    (hmode : (fs'.disk.inode n).mode = mode)
    (hrecs : ∀ m ∈ recs, m ≠ n → fs'.disk.Live m →
      fs.disk.Live m ∧ (fs'.disk.inode m).mode = (fs.disk.inode m).mode)
    (hperm : ∀ m, fs.disk.Live m → permBits (fs.disk.inode m).mode = perm m) (hm : fs'.disk.Live m) :
    permBits (fs'.disk.inode m).mode =
      if fs'.disk.Live m ∧ ¬ fs.disk.Live m then permBits mode else perm m := by
  by_cases hmn : m = n
  · rw [hmn] at hm ⊢
    rw [if_pos ⟨hm, hn⟩, hmode]
  · have hold : fs.disk.Live m ∧ (fs'.disk.inode m).mode = (fs.disk.inode m).mode := by
      by_cases hmem : m ∈ recs
      · exact hrecs m hmem hmn hm
      · exact ⟨(h.live_iff hmem).mp hm, by rw [h.inode m hm.1 hmem]⟩
    rw [if_neg fun hnew => hnew.2 hold.1, hold.2, hperm m hold.1]

theorem Born.permBits {p n : ℕ} {e : DirEntry} {node : Inode} {slots : List DirEntry}
    {blocks grown : List ℕ} {perm : ℕ → UInt16} (h : Born fs fs' p n e node slots blocks grown)
    (hp : fs.disk.Live p)
    (hperm : ∀ m, fs.disk.Live m → permBits (fs.disk.inode m).mode = perm m) (hm : fs'.disk.Live m) :
    permBits (fs'.disk.inode m).mode =
      if fs'.disk.Live m ∧ ¬ fs.disk.Live m then SimpleFS.permBits node.mode else perm m := by
  refine permBits_of_new h.footprint h.unused (by rw [h.inode]) (fun q hq hqn _ => ?_) hperm hm
  obtain rfl : q = p := by simpa [hqn] using hq
  exact ⟨hp, h.mode⟩

/-- A step changes the permission bits as noted. -/
theorem permBits_step {e : Event} {perm : ℕ → UInt16} (hs : Healthy fs) (h : fs.Steps e fs')
    (hperm : ∀ m, fs.disk.Live m → permBits (fs.disk.inode m).mode = perm m) (hm : fs'.disk.Live m) :
    permBits (fs'.disk.inode m).mode = notePerm fs e fs' perm m := by
  have hc := hs.toConsistent
  have hkeeps : KeepsModes fs fs' → permBits (fs'.disk.inode m).mode = perm m := fun hk => by
    rw [(hk m hm).2, hperm m (hk m hm).1]
  have hsame : fs' = fs → KeepsModes fs fs' := by
    rintro rfl m hm
    exact ⟨hm, rfl⟩
  obtain ⟨r, now, reply⟩ := e
  obtain ⟨hr, hsafe, ha⟩ := h
  dsimp only at hr hsafe ha
  cases r with
  | getattr ino => exact hkeeps (hsame (Fs.getattr_unchanged ha))
  | readdir ino offset full => exact hkeeps (hsame (Fs.readdir_unchanged ha))
  | lookup p name => exact hkeeps (hsame (Fs.lookup_unchanged ha))
  | openFile ino flags uid gid => exact hkeeps (hsame (Fs.openFile_unchanged ha))
  | read ino offset size => exact hkeeps (hsame (Fs.read_unchanged ha))
  | create p name =>
    have hold : fs' = fs → permBits (fs'.disk.inode m).mode =
        if fs'.disk.Live m ∧ ¬ fs.disk.Live m then 0o644 else perm m := by
      rintro rfl
      rw [if_neg fun hnew => hnew.2 hm, hperm m hm]
    cases create_outcome hc hr.1.1 hsafe ha with
    | found _ => exact hold rfl
    | noInode _ _ => exact hold rfl
    | orphan _ _ _ hunused _ _ hst =>
      have hbits := permBits_of_new hst.footprint hunused (by rw [hst.inode])
        (fun q hq hqn _ => absurd (List.mem_singleton.mp hq) hqn) hperm hm
      rwa [permBits_createdInode] at hbits
    | created _ _ _ _ hb =>
      have hbits := hb.permBits hr.1.1 hperm hm
      rwa [permBits_createdInode] at hbits
  | mkdir p name =>
    have hold : fs' = fs → permBits (fs'.disk.inode m).mode =
        if fs'.disk.Live m ∧ ¬ fs.disk.Live m then 0o755 else perm m := by
      rintro rfl
      rw [if_neg fun hnew => hnew.2 hm, hperm m hm]
    cases mkdirAttempt_outcome hc hr.1.1 hsafe (Fs.answered_eq_some.mp ha) with
    | found _ => exact hold rfl
    | noInode _ _ => exact hold rfl
    | noBlock _ _ => exact hold rfl
    | made _ _ _ _ hb =>
      have hbits := hb.permBits hr.1.1 hperm hm
      rwa [permBits_madeInode] at hbits
  | rmdir p name =>
    cases rmdir_outcome hc hr.1.1 (hs.tree.live_of_nameOr hr.1 hr.2) ha with
    | missing _ => exact hkeeps (hsame rfl)
    | notDir _ _ => exact hkeeps (hsame rfl)
    | notEmpty _ _ => exact hkeeps (hsame rfl)
    | gone _ _ _ hg => exact hkeeps (hg.keepsModes hr.1.1)
  | unlink p name =>
    cases unlink_outcome hc hr.1.1 hr.1.2 (hs.tree.live_of_nameOr hr.1 hr.2) ha with
    | missing _ => exact hkeeps (hsame rfl)
    | isDir _ _ => exact hkeeps (hsame rfl)
    | gone _ _ hg => exact hkeeps (hg.keepsModes hr.1.1)
  | write n offset data =>
    have hone : ∀ {own new freed : List ℕ}, Footprint fs fs' [n] own new freed →
        (fs'.disk.inode n).mode = (fs.disk.inode n).mode → KeepsModes fs fs' := by
      refine fun hf hmode => hf.keepsModes fun q hq _ => ?_
      rw [List.mem_singleton.mp hq]
      exact ⟨hr.1, hmode⟩
    cases writeAttempt_outcome hc hr.1 hsafe (Fs.answered_eq_some.mp ha) with
    | empty _ => exact hkeeps (hsame rfl)
    | tooBig _ _ => exact hkeeps (hsame rfl)
    | stalled _ _ _ _ hst _ =>
      exact hkeeps (hone (hst.touched hc hr.1).footprint (by rw [hst.inode]))
    | wrote _ _ _ hw => exact hkeeps (hone hw.footprint hw.mode)
  | setattr n mode size =>
    have hanswer := setattr_some hc hr mode size now
    have hinode := Disk.inode_putInode_self fs.disk
      { Fs.setMode (fs.disk.inode n) mode with mtime := now 0 }
    rw [(sameMap_setMode (fs.disk.inode n) mode (now 0)).inodeNo,
      Consistent.toNat_inodeNo hr.1] at hinode
    have hf := (setattr_outcome hc hr hanswer).footprint
    obtain ⟨-, rfl⟩ := Prod.mk.inj (Option.some.inj (hanswer.symm.trans ha))
    by_cases hmn : m = n
    · rw [hmn] at hm ⊢
      dsimp only at hinode ⊢
      rw [hinode]
      cases mode with
      | none => exact hperm n hr
      | some newMode => exact (permBits_setMode _ newMode).trans (if_pos rfl).symm
    · have hmode := hf.inode m hm.1 (by simpa using hmn)
      have hlive := (hf.live_iff (by simpa using hmn)).mp hm
      rw [hmode, hperm m hlive]
      cases mode with
      | none => rfl
      | some newMode => exact (if_neg hmn).symm

end Mode

section Open

variable {fs : Fs} {n : ℕ} {flags uid gid : UInt32}

/-- `open` refuses only who wants to write where no class may write. -/
theorem openFile_eq (hc : Consistent fs) (hn : fs.disk.Live n) (flags uid gid : UInt32) :
    fs.openFile n flags uid gid =
      if (flags &&& 1 ≠ 0 ∨ flags &&& 2 ≠ 0) ∧ permBits (fs.disk.inode n).mode &&& 0o222 = 0 then
        some (.error .EACCES, fs)
      else some (.opened n 0, fs) := by
  rw [Fs.openFile, Consistent.asU32_of_inodeNo hn.1, hc.readInode hn.1, Option.bind_eq_bind,
    Option.bind_some]
  refine if_congr ?_ rfl rfl
  simp [Inode.checkPermission, permBits]

/-- After any run the permission bits of an inode in use are those noted for it, and `open` enforces
them exactly for the requesters that they admit, and for those who want to write where no class
may. -/
theorem openEnforces_iff {start : Fs} {now : Int64} {perm : ℕ → UInt16}
    (hstart : mount [] now = some start) (h : Run Fs.Steps notePerm start (fun _ => 0o755) fs perm)
    (hn : fs.disk.Live n) (flags uid gid : UInt32) :
    permBits (fs.disk.inode n).mode = perm n ∧
      (OpenEnforces fs n (perm n) flags uid gid ↔
        Grants (perm n) (fs.disk.inode n) flags uid gid ∨
          (flags &&& 1 ≠ 0 ∨ flags &&& 2 ≠ 0) ∧ perm n &&& 0o222 = 0) := by
  obtain ⟨fs₀, hmount, hformat⟩ := mount_nil now
  obtain rfl := Option.some.inj (hstart.symm.trans hmount)
  have hinv : Healthy fs ∧ ∀ m, fs.disk.Live m → permBits (fs.disk.inode m).mode = perm m := by
    refine h.invariant (P := fun (s : Fs) (g : ℕ → UInt16) => Healthy s ∧
      ∀ m, s.disk.Live m → permBits (s.disk.inode m).mode = g m)
        ⟨hformat.healthy Disk.blank_empty, fun m hm => ?_⟩
        fun s e s' g hg hstep => ⟨hstep.healthy hg.1, fun m hm => permBits_step hg.1 hstep hg.2 hm⟩
    rw [(hformat.live_iff Disk.blank_empty).mp hm, hformat.root, permBits_madeInode]
  have hbits := hinv.2 n hn
  refine ⟨hbits, ?_⟩
  unfold OpenEnforces
  rw [openFile_eq hinv.1.toConsistent hn, hbits]
  constructor
  · intro hopen
    by_cases hrefused : (flags &&& 1 ≠ 0 ∨ flags &&& 2 ≠ 0) ∧ perm n &&& 0o222 = 0
    · exact Or.inr hrefused
    · rw [if_neg hrefused] at hopen
      exact Or.inl (hopen n 0 fs rfl)
  · rintro (hgrants | hrefused)
    · exact fun _ _ _ _ => hgrants
    · intro fh fl fs' hopened
      rw [if_pos hrefused] at hopened
      cases hopened

theorem notePerm_create (fs fs' : Fs) {p : ℕ} {name : ByteArray} {now : ℕ → Int64} {reply : Reply}
    (perm : ℕ → UInt16) {m : ℕ} (h : fs'.disk.Live m) (h' : ¬ fs.disk.Live m) :
    notePerm fs ⟨.create p name, now, reply⟩ fs' perm m = 0o644 := if_pos ⟨h, h'⟩

/-- A new file in a new image. -/
theorem exists_run_create {name : ByteArray} (hname : EntryName name) (now : Int64) :
    ∃ start fs perm, mount [] now = some start ∧
      Run Fs.Steps notePerm start (fun _ => 0o755) fs perm ∧ fs.disk.Live 1000 ∧
      fs.disk.inode 1000 = createdInode 1000 now ∧ perm 1000 = 0o644 := by
  obtain ⟨start, hmount, hformat⟩ := mount_nil now
  obtain ⟨hsafe, fs, hcreate, hb⟩ := hformat.create Disk.blank_empty hname fun _ => now
  have hlive : fs.disk.Live 1000 :=
    ⟨hb.inodeNo, by rw [hb.inode]; exact nlink_createdInode _ _⟩
  have hstep : start.Steps ⟨.create 1 name, fun _ => now, _⟩ fs :=
    ⟨⟨hformat.isDirectory_root, hname⟩, hsafe, hcreate⟩
  exact ⟨start, fs, _, hmount, .step _ .start hstep, hlive, hb.inode,
    notePerm_create start fs _ hlive hb.unused⟩

theorem openEnforces_other : ∃ (fs : Fs) (perm : ℕ → UInt16),
    OpenEnforces fs 1000 (perm 1000) 0 5 5 := by
  obtain ⟨start, fs, perm, hmount, hrun, hn, hinode, hperm⟩ := exists_run_create entryName_a 0
  refine ⟨fs, perm, (openEnforces_iff hmount hrun hn 0 5 5).2.mpr (Or.inl ?_)⟩
  rw [hperm, hinode]
  exact ⟨fun _ => by decide, fun hwrite => absurd hwrite (by decide)⟩

/-- A new file is opened for writing by somebody who may only read it. -/
theorem not_openEnforces_other : ∃ start fs perm, mount [] 0 = some start ∧
    Run Fs.Steps notePerm start (fun _ => 0o755) fs perm ∧ fs.disk.Live 1000 ∧
    perm 1000 = 0o644 ∧ fs.openFile 1000 2 5 5 = some (.opened 1000 0, fs) ∧
    ¬ OpenEnforces fs 1000 (perm 1000) 2 5 5 := by
  obtain ⟨start, fs, perm, hmount, hrun, hn, hinode, hperm⟩ := exists_run_create entryName_a 0
  obtain ⟨fs₀, hmount₀, hformat⟩ := mount_nil 0
  obtain rfl := Option.some.inj (hmount.symm.trans hmount₀)
  have hc := (healthy_of_run hrun (hformat.healthy Disk.blank_empty)).toConsistent
  have hopened : fs.openFile 1000 2 5 5 = some (.opened 1000 0, fs) := by
    rw [openFile_eq hc hn, hinode, permBits_createdInode, if_neg (by decide)]
  refine ⟨start, fs, perm, hmount, hrun, hn, hperm, hopened, fun h => ?_⟩
  have hgrants := (h _ _ _ hopened).2 (by decide)
  rw [hperm, hinode] at hgrants
  exact hgrants (by decide)

end Open

end SimpleFS
