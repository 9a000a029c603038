import SimpleFS.Spec.Store

/-! What each outcome of a request does to the store. -/
namespace SimpleFS
open NodeStore Overlay FiniteMap Function

variable {fs fs' : Fs}

section Frame

variable {recs own new freed : List ℕ} {n p : ℕ}

theorem Touched.node (h : Touched fs fs' recs own new freed) (hs : StoreSound fs) (hrecs : n ∉ recs) :
    fs'.store n = fs.store n := by
  by_cases hn : fs.disk.Live n
  · exact (h.untouched hs.toConsistent hn hrecs).node fun _ => hs.mapped n hn
  · have hn' : ¬ fs'.disk.Live n := fun hl => hn ((h.footprint.live_iff hrecs).mp hl)
    exact (node_eq_none_iff.mpr hn').trans (node_eq_none_iff.mpr hn).symm

theorem Touched.store_one (h : Touched fs fs' [n] own new freed) (hs : StoreSound fs) :
    fs'.store = update fs.store n (fs'.store n) := by
  funext m
  by_cases hm : m = n
  · rw [hm, update_self]
  · rw [update_of_ne hm, h.node hs (by simpa using hm)]

theorem Touched.store_two (h : Touched fs fs' [n, p] own new freed) (hs : StoreSound fs) :
    fs'.store = update (update fs.store n (fs'.store n)) p (fs'.store p) := by
  funext m
  by_cases hp : m = p
  · rw [hp, update_self]
  rw [update_of_ne hp]
  by_cases hm : m = n
  · rw [hm, update_self]
  · rw [update_of_ne hm, h.node hs (by simp [hm, hp])]

end Frame

section NewNodes

variable {d : Disk} {n p b : ℕ} {now : Int64}

theorem lists_dots {dir : Inode} (hn : InodeNo n) (hp : InodeNo p) (h : dir.table d = dots n p) :
    dir.Lists d (FileStore.dots n p) := by
  have hentries : dir.entries d = [.new n "." true, .new p ".." true] := by
    rw [Inode.entries, h]
    simp [dots, SlotTable.live, DirEntry.isEmpty_new]
  have hnil : Lists DirEntry.nameStr (fun e => e.inode.toNat) [] fun _ => none :=
    ⟨by simp, List.nodup_nil, by simp⟩
  have hone := hnil.cons (x := .new p ".." true) (k := "..")
    (DirEntry.nameStr_new_of_le p true (by decide)) rfl
  have htwo := hone.cons (x := .new n "." true) (k := ".")
    (DirEntry.nameStr_new_of_le n true (by decide)) rfl
  rw [DirEntry.inode_new, DirEntry.inode_new, toNat_ofNat_of_inodeNo hn,
    toNat_ofNat_of_inodeNo hp] at htwo
  rw [Inode.Lists, hentries]
  exact htwo

theorem node_madeInode (hn : InodeNo n) (hp : InodeNo p) (h : d.inode n = madeInode n b now)
    (htable : (madeInode n b now).table d = dots n p) :
    d.node n = some (.dir (sIfDir ||| 0o755) (FileStore.dots n p)) := by
  have hdir : d.IsDirectory n :=
    ⟨⟨hn, by rw [h]; exact nlink_madeInode n b now⟩, by rw [h]; exact isDir_madeInode n b now⟩
  rw [node_of_isDirectory hdir, h, (lists_dots hn hp htable).names_eq]
  rfl

end NewNodes

section Born

variable {p n : ℕ} {name : String} {isDir : Bool} {node : Inode} {slots : List DirEntry}
  {blocks grown : List ℕ}

theorem Born.isDirectory (h : Born fs fs' p n (.new n name isDir) node slots blocks grown)
    (hp : fs.disk.IsDirectory p) : fs'.disk.IsDirectory p := by
  constructor
  · exact ⟨hp.1.1, by rw [h.nlink]; exact hp.1.2⟩
  · rw [Inode.isDir, h.mode]
    exact hp.2

theorem Born.lists (h : Born fs fs' p n (.new n name isDir) node slots blocks grown)
    (hlist : fs.disk.Listing DirEntry.nameStr p) (hne : name ≠ "")
    (hlen : name.toByteArray.size ≤ 28) (hlacks : (fs.disk.inode p).Lacks fs.disk name) :
    (fs'.disk.inode p).Lists fs'.disk
      (update ((fs.disk.inode p).names fs.disk) name (some n)) := by
  have hcons := hlist.lists.cons (DirEntry.nameStr_new_of_le n isDir hlen)
    (names_eq_none_of_lacks hlacks)
  rw [DirEntry.inode_new, toNat_ofNat_of_inodeNo h.inodeNo] at hcons
  exact hcons.perm (perm_entries_insert (DirEntry.isEmpty_new n isDir hne) h.table)

theorem Born.store (h : Born fs fs' p n (.new n name isDir) node slots blocks grown)
    (hs : StoreSound fs) (hp : fs.disk.IsDirectory p) (hne : name ≠ "")
    (hlen : name.toByteArray.size ≤ 28) (hlacks : (fs.disk.inode p).Lacks fs.disk name)
    (hm : node.Mapped fs'.disk) {new : FileNode} (hnew : fs'.disk.node n = some new) :
    fs'.store = fs.store.link p (fs.disk.inode p).mode ((fs.disk.inode p).names fs.disk) name n
      new := by
  have hlists := h.lists ((hs.nodes p hp.1).listing hp.2) hne hlen hlacks
  have hparent := node_of_isDirectory (h.isDirectory hp)
  rw [hlists.names_eq, h.mode] at hparent
  rw [(h.touched hs.toConsistent hp.1 hm).store_two hs, Store.link]
  exact congrArg₂ (fun a b => update (update fs.store n a) p b) hnew hparent

theorem Born.nodeSound (h : Born fs fs' p n (.new n name isDir) node slots blocks grown)
    (hs : fs.disk.NodeSound p) (hp : fs.disk.IsDirectory p) (hne : name ≠ "")
    (hlen : name.toByteArray.size ≤ 28) (hlacks : (fs.disk.inode p).Lacks fs.disk name) :
    fs'.disk.NodeSound p := by
  have hdir := (h.isDirectory hp).2
  have hname := DirEntry.nameStr_new_of_le n isDir hlen
  constructor
  · rw [hdir, h.nlink, hs.nlink, hp.2]
  · intro _
    refine (hs.listing hp.2).cons (by simp [hname]) (fun hmem => ?_)
      (perm_entries_insert (DirEntry.isEmpty_new n isDir hne) h.table)
    obtain ⟨e, he, heq⟩ := List.mem_map.mp hmem
    have hnamed := (hlacks e he).2
    rw [DirEntry.named, heq, hname, beq_self_eq_true] at hnamed
    cases hnamed
  · rw [hdir]
    intro heq
    cases heq
  · rw [hdir]
    intro heq
    cases heq

end Born

section Gone

variable {p c : ℕ} {name : String} {now : Int64} {freed : List ℕ}

theorem Gone.nlink (h : Gone fs fs' p c name now freed) (hpc : p ≠ c) :
    (fs'.disk.inode p).nlink = (fs.disk.inode p).nlink := by rw [h.inode hpc]

theorem Gone.mode (h : Gone fs fs' p c name now freed) (hpc : p ≠ c) :
    (fs'.disk.inode p).mode = (fs.disk.inode p).mode := by rw [h.inode hpc]

theorem Gone.isDirectory (h : Gone fs fs' p c name now freed) (hp : fs.disk.IsDirectory p)
    (hpc : p ≠ c) : fs'.disk.IsDirectory p := by
  constructor
  · exact ⟨hp.1.1, by rw [h.nlink hpc]; exact hp.1.2⟩
  · rw [Inode.isDir, h.mode hpc]
    exact hp.2

theorem Gone.lists (h : Gone fs fs' p c name now freed) (hpc : p ≠ c)
    (hlist : fs.disk.Listing DirEntry.nameStr p) :
    (fs'.disk.inode p).Lists fs'.disk (update ((fs.disk.inode p).names fs.disk) name none) := by
  rw [Inode.Lists, Inode.entries, h.table hpc, SlotTable.live_clear DirEntry.isEmpty_cleared]
  exact hlist.lists.eraseP name

theorem Gone.store (h : Gone fs fs' p c name now freed) (hs : StoreSound fs)
    (hp : fs.disk.IsDirectory p) (hpc : p ≠ c) :
    fs'.store = fs.store.unlink p (fs.disk.inode p).mode ((fs.disk.inode p).names fs.disk) name
      c := by
  have hlists := h.lists hpc ((hs.nodes p hp.1).listing hp.2)
  have hparent := node_of_isDirectory (h.isDirectory hp hpc)
  rw [hlists.names_eq, h.mode hpc] at hparent
  rw [(h.touched hs.toConsistent hp.1).store_two hs, Store.unlink]
  exact congrArg₂ (fun a b => update (update fs.store c a) p b) (node_eq_none_iff.mpr h.unused)
    hparent

theorem Gone.nodeSound {e : DirEntry} (h : Gone fs fs' p e.inode.toNat name now freed)
    (hs : StoreSound fs) (hp : fs.disk.IsDirectory p) (hpc : p ≠ e.inode.toNat)
    (hn : Names fs.disk p name e) (hname : ProperName name) : fs'.disk.NodeSound p := by
  have hdir := (h.isDirectory hp hpc).2
  have hnode := hs.nodes p hp.1
  constructor
  · rw [hdir, h.nlink hpc, hnode.nlink, hp.2]
  · intro _
    exact (hnode.listing hp.2).tail (hname.ordinary hn.named)
      ((h.removed hs.toConsistent hp hn hname).entries hpc)
  · rw [hdir]
    intro heq
    cases heq
  · rw [hdir]
    intro heq
    cases heq

end Gone

section File

variable {n : ℕ} {offset : Int64} {data : List UInt8} {new : List ℕ}

theorem Stalled.untouched_node (h : Stalled fs fs' n new) (hn : fs.disk.Live n)
    (hfile : (fs.disk.inode n).isDir = false) (hm : (fs.disk.inode n).Mapped fs.disk) :
    fs'.store n = fs.store n := by
  have hlive : fs'.disk.Live n := ⟨hn.1, by rw [h.inode]; exact hn.2⟩
  have hbytes : (fs.disk.inode n).bytes fs'.disk = (fs.disk.inode n).bytes fs.disk := by
    unfold Inode.bytes
    rw [h.content hm]
  show fs'.disk.node n = fs.disk.node n
  rw [node_of_file hlive (by rw [h.inode]; exact hfile), node_of_file hn hfile, h.inode, hbytes]

theorem Stalled.store (h : Stalled fs fs' n new) (hs : StoreSound fs) (hn : fs.disk.Live n)
    (hfile : (fs.disk.inode n).isDir = false) : fs'.store = fs.store := by
  rw [(h.touched hs.toConsistent hn).store_one hs,
    h.untouched_node hn hfile (hs.mapped n hn), update_eq_self]

theorem Stalled.nodeSound (h : Stalled fs fs' n new) (hs : fs.disk.NodeSound n)
    (hfile : (fs.disk.inode n).isDir = false) (hm : (fs.disk.inode n).Mapped fs.disk) :
    fs'.disk.NodeSound n := by
  constructor
  · rw [h.inode]
    exact hs.nlink
  · rw [h.inode, hfile]
    intro heq
    cases heq
  · rw [h.inode]
    exact hs.fits
  · rw [h.inode, h.content hm]
    exact hs.rest

/-- The bytes after a write within the size limit. -/
theorem Wrote.bytes (h : Wrote fs fs' n offset data new) (hs : fs.disk.NodeSound n)
    (hfile : (fs.disk.inode n).isDir = false) (hm : (fs.disk.inode n).Mapped fs.disk)
    (h0 : 0 ≤ offset.toInt) (hlt : offset.toInt.toNat + data.length ≤ maxFileSize) :
    (fs'.disk.inode n).bytes fs'.disk =
      overwrite 0 ((fs.disk.inode n).bytes fs.disk) offset.toInt.toNat data := by
  simp only [maxFileSize, maxFileBlocks, pageSize, blockSize] at hlt
  rw [Inode.bytes, h.size, toNat_newSize h0 (by omega), h.content hm, writePos_eq h0 (by omega)]
  exact window_patch (hs.rest hfile) _ _

theorem Wrote.isFile (h : Wrote fs fs' n offset data new)
    (hfile : (fs.disk.inode n).isDir = false) : (fs'.disk.inode n).isDir = false := by
  rw [Inode.isDir, h.mode]
  exact hfile

theorem Wrote.store (h : Wrote fs fs' n offset data new) (hs : StoreSound fs)
    (hn : fs.disk.Live n) (hfile : (fs.disk.inode n).isDir = false) (h0 : 0 ≤ offset.toInt)
    (hlt : offset.toInt.toNat + data.length ≤ maxFileSize) :
    fs'.store = update fs.store n (some (.file (fs.disk.inode n).mode
      (overwrite 0 ((fs.disk.inode n).bytes fs.disk) offset.toInt.toNat data))) := by
  have hlive : fs'.disk.Live n := ⟨hn.1, by rw [h.nlink]; exact hn.2⟩
  have hnode := node_of_file hlive (h.isFile hfile)
  rw [h.bytes (hs.nodes n hn) hfile (hs.mapped n hn) h0 hlt, h.mode] at hnode
  rw [(h.touched hs.toConsistent hn).store_one hs]
  exact congrArg (update fs.store n) hnode

theorem Wrote.nodeSound (h : Wrote fs fs' n offset data new) (hs : fs.disk.NodeSound n)
    (hfile : (fs.disk.inode n).isDir = false) (hm : (fs.disk.inode n).Mapped fs.disk)
    (h0 : 0 ≤ offset.toInt) (hlt : offset.toInt.toNat + data.length ≤ maxFileSize) :
    fs'.disk.NodeSound n := by
  simp only [maxFileSize, maxFileBlocks, pageSize, blockSize] at hlt
  have hsize : (fs'.disk.inode n).size.toNat =
      max (fs.disk.inode n).size.toNat (offset.toInt.toNat + data.length) := by
    rw [h.size, toNat_newSize h0 (by omega)]
  have hpos := writePos_eq h0 (show offset.toInt.toNat < 2 ^ 32 by omega)
  have hfits := h.fits
  have hcount := h.blockCount
  have hold := hs.fits hfile
  constructor
  · rw [h.isFile hfile, h.nlink, hs.nlink, hfile]
  · rw [h.isFile hfile]
    intro heq
    cases heq
  · intro _
    rw [hpos] at hfits
    rw [hsize]
    omega
  · intro _ x hx
    rw [hsize] at hx
    rw [h.content hm, hpos, patch_of_outside _ (Or.inr (by omega))]
    exact hs.rest hfile x (by omega)

end File

section Attributes

variable {n : ℕ}

/-- The node after a change of its record that leaves its blocks alone. -/
theorem Attributed.node (h : Attributed fs fs' n) (hs : StoreSound fs) (hn : fs.disk.Live n)
    {node : FileNode} (hnode : fs.store n = some node) :
    fs'.store n = some (node.setAttr (fs'.disk.inode n).mode) := by
  have hlive : fs'.disk.Live n := ⟨hn.1, by rw [h.nlink]; exact hn.2⟩
  have hm := hs.mapped n hn
  have hentries : (fs'.disk.inode n).entries fs'.disk =
      (fs.disk.inode n).entries fs.disk := by
    rw [Inode.entries, h.restamped.table, Inode.entries]
  have hcontent := h.restamped.content hm
  change fs.disk.node n = some node at hnode
  cases hdir : (fs.disk.inode n).isDir with
  | true =>
    rw [node_of_isDirectory ⟨hn, hdir⟩] at hnode
    obtain rfl := Option.some.inj hnode
    refine (node_of_isDirectory ⟨hlive, h.isDir.trans hdir⟩).trans ?_
    unfold Inode.names
    rw [hentries]
    rfl
  | false =>
    rw [node_of_file hn hdir] at hnode
    obtain rfl := Option.some.inj hnode
    refine (node_of_file hlive (h.isDir.trans hdir)).trans ?_
    unfold Inode.bytes
    rw [hcontent, h.size]
    rfl

theorem Attributed.nodeSound (h : Attributed fs fs' n) (hs : fs.disk.NodeSound n)
    (hm : (fs.disk.inode n).Mapped fs.disk) : fs'.disk.NodeSound n := by
  have hentries : (fs'.disk.inode n).entries fs'.disk =
      (fs.disk.inode n).entries fs.disk := by
    rw [Inode.entries, h.restamped.table, Inode.entries]
  constructor
  · rw [h.isDir, h.nlink]
    exact hs.nlink
  · rw [h.isDir]
    exact fun hdir => (hs.listing hdir).of_entries hentries
  · rw [h.isDir, h.size, h.sameMap.blockCount]
    exact hs.fits
  · rw [h.isDir, h.size, h.restamped.content hm]
    exact hs.rest

end Attributes

end SimpleFS
