import OsWorkbench.Ext2.Bitmaps
import OsWorkbench.Ext2.Dir

/-!
# Consistent volumes

What the calls rely on: every inode in use has blocks of its own, which are marked, a
directory has the size of its entries, and the counters agree with the bitmaps. The root
directory that `ext2_init` makes on a device of zeros is such a volume.
-/

namespace OsWorkbench.Ext2

/-- The inode is in use. -/
def Vol.Live (v : Vol) (i : UInt32) : Prop := IsInode i ∧ v.inodeMap.bit (i.toNat - 1) = true

instance (v : Vol) (i : UInt32) : Decidable (v.Live i) := inferInstanceAs (Decidable (_ ∧ _))

/-- Inodes in use have marked blocks of their own, and directories have the size of their
entries. -/
structure Vol.Sound (v : Vol) : Prop where
  blocks : ∀ {i}, v.Live i → HasBlocks (v.inode i)
  marked : ∀ {i k}, v.Live i → k < (v.inode i).blocks.toNat →
    v.blockMap.bit ((v.inode i).blk k).toNat = true
  own : ∀ {i i' k k'}, v.Live i → v.Live i' → k < (v.inode i).blocks.toNat →
    k' < (v.inode i').blocks.toNat → (v.inode i).blk k = (v.inode i').blk k' → i = i' ∧ k = k'
  size : ∀ {i}, v.Live i → has (v.inode i).mode typeDir = true →
    (v.inode i).size.toNat = dirSize * (entries v (v.inode i)).length
  names : ∀ {i k}, v.Live i → has (v.inode i).mode typeDir = true → k < (v.inode i).blocks.toNat →
    Terminated (v.block ((v.inode i).blk k))

/-- The volume is sound, and the counters and the numbers that were last given out agree
with it. -/
structure Consistent (s : Fs) : Prop where
  room : s.dev.Room
  sound : s.dev.vol.Sound
  lastBlock : IsBlock s.lastAllocBlock
  lastInode : IsInode s.lastAllocInode
  freeBlocks : Counts s.gdt.freeBlocksCount s.dev.vol.blockMap
  freeInodes : Counts s.gdt.freeInodesCount s.dev.vol.inodeMap

theorem IsInode.ne_zero {i : UInt32} (h : IsInode i) : i ≠ 0 := by
  rintro rfl
  exact absurd h.1 (by decide)

/-! ## A new root directory -/

theorem bit_zero {n : Nat} (k : Nat) : (Bytes.zero : Bytes n).bit k = false := by
  have hget : (Bytes.zero : Bytes n).get (k / 8) = 0 := by
    unfold Bytes.get
    split <;> rfl
  rw [Bytes.bit, hget]
  simp

theorem used_zero {n : Nat} : (Bytes.zero : Bytes n).used = ∅ := by
  ext k
  rw [Bytes.mem_used, bit_zero]
  simp

/-- A ram disk of `RD_SIZE` bytes is large enough. -/
theorem room_rdSize : (Device.zero rdSize).Room := by
  unfold Device.Room
  decide

section Root

variable {size : Nat}

theorem vol_zero_block : (Device.zero size).vol.block 0 = .zero := rfl

/-- The block of the root directory, out of what block 0 held. -/
def rootBlock (d : Block) (c : UInt32) : Block :=
  let dir := setDirInode (setDirInode d 1 c) 0 c
  withDots (setDirNameLen (setDirNameLen dir 1 0) 0 0)

/-- The inode of the root directory, out of what inode 1 held. -/
def rootInode (x : Inode) (b : UInt32) : Inode :=
  { x.setBlk 0 b with
    mode := typeDir ||| rdAble ||| wrAble
    blocks := 1
    size := .ofNat (2 * dirSize) }

theorem rootInode_blk {x : Inode} {b : UInt32} : (rootInode x b).blk 0 = b := by
  simp [rootInode, Inode.setBlk, Inode.blk]

theorem get32_rootBlock (d : Block) (c : UInt32) {o : Nat}
    (ho : o = 4 ∨ o = 36 ∨ 64 ≤ o) : (rootBlock d c).get32 o = d.get32 o := by
  unfold rootBlock
  rw [get32_withDots _ (by omega), setDirNameLen,
    Bytes.get32_put32_other _ _ (by unfold dirSize; omega), setDirNameLen,
    Bytes.get32_put32_other _ _ (by unfold dirSize; omega), setDirInode,
    Bytes.get32_put32_other _ _ (by unfold dirSize; omega), setDirInode,
    Bytes.get32_put32_other _ _ (by unfold dirSize; omega)]

theorem dirInode_rootBlock (d : Block) (c : UInt32) {j : Nat} (hj : j < 2) :
    dirInode (rootBlock d c) j = c := by
  obtain rfl | rfl : j = 0 ∨ j = 1 := by omega
  · unfold rootBlock dirInode
    rw [get32_withDots _ (by decide), setDirNameLen,
      Bytes.get32_put32_other _ _ (by decide), setDirNameLen,
      Bytes.get32_put32_other _ _ (by decide), setDirInode, Bytes.get32_put32 _ _ (by decide)]
  · unfold rootBlock dirInode
    rw [get32_withDots _ (by decide), setDirNameLen,
      Bytes.get32_put32_other _ _ (by decide), setDirNameLen,
      Bytes.get32_put32_other _ _ (by decide), setDirInode,
      Bytes.get32_put32_other _ _ (by decide), setDirInode, Bytes.get32_put32 _ _ (by decide)]

theorem rootBlock_free {d : Block} {c : UInt32} {j : Nat} (hj : 2 ≤ j) :
    dirInode (rootBlock d c) j = dirInode d j :=
  get32_rootBlock d c (by unfold dirSize; omega)

/-- The slots behind the first two are those of block 0. -/
theorem rootBlock_spec {d : Block} {c : UInt32} (hc : c ≠ 0)
    (hfree : ∀ j, 2 ≤ j → j < dirAmut → dirInode d j = 0) :
    blockEntries (rootBlock d c) = [⟨.lit ".", c, dirMode d 0⟩, ⟨.lit "..", c, dirMode d 1⟩] ∧
      Terminated (rootBlock d c) := by
  have hinode : ∀ j, dirInode (rootBlock d c) j = dirInode (setDirNameLen (setDirNameLen
      (setDirInode (setDirInode d 1 c) 0 c) 1 0) 0 0) j := fun j =>
    get32_withDots _ (by unfold dirSize; omega)
  have hmode : ∀ j, j < 2 → dirMode (rootBlock d c) j = dirMode (setDirNameLen (setDirNameLen
      (setDirInode (setDirInode d 1 c) 0 c) 1 0) 0 0) j := fun j hj =>
    get32_withDots _ (by unfold dirSize; omega)
  have h0 := (hinode 0).symm.trans (dirInode_rootBlock d c (by decide))
  have h1 := (hinode 1).symm.trans (dirInode_rootBlock d c (by decide))
  obtain ⟨hentries, hterm⟩ := withDots_spec (by rwa [h0]) (by rwa [h1]) fun j hj hj16 =>
    (hinode j).symm.trans ((rootBlock_free hj).trans (hfree j hj hj16))
  refine ⟨?_, hterm⟩
  rw [h0, h1, ← hmode 0 (by decide), ← hmode 1 (by decide)] at hentries
  exact hentries.trans (by
    rw [show dirMode (rootBlock d c) 0 = dirMode d 0 from get32_rootBlock d c (by decide),
      show dirMode (rootBlock d c) 1 = dirMode d 1 from get32_rootBlock d c (by decide)])

/-- What `ext2_init` makes of a device before it creates the files. -/
structure RootMade (d : Device) (s : Fs) (mb mi : Block) (b c : UInt32) : Prop where
  room : s.dev.Room
  vol : s.dev.vol = { d.vol with
    gd := s.gdt
    blockMap := mb
    inodeMap := mi
    inode := Function.update d.vol.inode c (rootInode (d.vol.inode 1) b)
    block := Function.update d.vol.block b (rootBlock (d.vol.block 0) c) }
  dir : s.currentDir = c
  lastBlock : s.lastAllocBlock = b
  lastInode : s.lastAllocInode = c
  freeBlocks : s.gdt.freeBlocksCount = 4095
  freeInodes : s.gdt.freeInodesCount = 4095

/-- The group descriptor that `ext2_init` writes. -/
def rootGd (g : GroupDesc) : GroupDesc :=
  { g with
    blockBitmap := 2 * 512
    inodeBitmap := 3 * 512
    inodeTable := 4 * 512
    freeBlocksCount := .ofNat dataBlockCount
    freeInodesCount := .ofNat inodeTableCount
    usedDirsCount := 0 }

/-- `ext2_init` in front of the first allocation. -/
def rootStart (d : Device) : Fs :=
  { blank d with
    lastAllocInode := 1
    lastAllocBlock := 0
    ind := { d.vol.inode 1 with
      mode := typeDir ||| rdAble ||| wrAble
      blocks := 0
      size := .ofNat (2 * dirSize) }
    dir := d.vol.block 0
    gdt := rootGd d.vol.gd
    blockbitmapbuf := (d.putGd (rootGd d.vol.gd)).vol.blockMap
    inodebitmapbuf := (d.putGd (rootGd d.vol.gd)).vol.inodeMap
    dev := d.putGd (rootGd d.vol.gd) }

theorem vol_rootStart (d : Device) :
    (rootStart d).dev.vol = { d.vol with gd := rootGd d.vol.gd } := Device.vol_putGd _

theorem initRoot_ok {d : Device} {mb mi : Block} {b c : Nat} (h : d.Room)
    (hb : takeBit d.vol.blockMap 0 = .ok (mb, b)) (hc : takeBit d.vol.inodeMap 0 = .ok (mi, c)) :
    ∃ s, initRoot d = .ok s ∧ RootMade d s mb mi (.ofNat b) (.ofNat (c + 1)) := by
  have h1 : IsInode 1 := by decide
  have h0 : IsBlock 0 := by decide
  have hfull : (4096 : UInt16) ≠ 0 := by decide
  have hvol₁ := vol_rootStart d
  have hbit := takeBit_bits (by decide) hb
  have hbit' := takeBit_bits (by decide) hc
  have hb' : IsBlock (.ofNat b) := by
    unfold IsBlock dataBlockCount
    rw [UInt32.toNat_ofNat']
    omega
  have hc' : IsInode (.ofNat (c + 1)) := by
    unfold IsInode inodeTableCount
    rw [UInt32.toNat_ofNat']
    omega
  have hcur : ((0 : UInt32) / 8).toNat = 0 := by decide
  have hallocb := allocBlock_of_takeBit (s := rootStart d) (m := mb) (k := b) h.maps hfull
    (by rw [hvol₁, show (rootStart d).lastAllocBlock = 0 from rfl, hcur]; exact hb)
  generalize UInt32.ofNat b = b at *
  let s₂ : Fs := { (rootStart d).tookBlock b mb with ind := rootInode (d.vol.inode 1) b }
  have hvol₂ : s₂.dev.vol = { (rootStart d).dev.vol with gd := s₂.gdt, blockMap := mb } :=
    vol_tookBlock b mb
  have hcur' : (((1 : UInt32) - 1) / 8).toNat = 0 := by decide
  have halloci := allocInode_of_takeBit (s := s₂) (m := mi) (k := c) h.maps hfull
    (by rw [hvol₂, hvol₁, show s₂.lastAllocInode = 1 from rfl, hcur']; exact hc)
  generalize UInt32.ofNat (c + 1) = c at *
  have hblk : (rootInode (d.vol.inode 1) b).blk 0 = b := rootInode_blk
  let dir := rootBlock (d.vol.block 0) c
  let s₃ : Fs := { s₂.tookInode c mi with
    currentDir := c, dev := (s₂.tookInode c mi).dev.putInode c s₂.ind }
  let s : Fs := { s₃ with dir := dir, dev := s₃.dev.putBlock b dir }
  have hrun : initRoot d = .ok s := by
    have hread : rdInd { blank d with lastAllocInode := 1, lastAllocBlock := 0 } 1 =
        .ok { blank d with lastAllocInode := 1, lastAllocBlock := 0, ind := d.vol.inode 1 } :=
      rdInd_ok h h1
    rw [initRoot]
    refine bind_eq_ok.mpr ⟨_, hread, bind_eq_ok.mpr ⟨_, rdDir_ok h h0, ?_⟩⟩
    refine bind_eq_ok.mpr ⟨_, rdGd_ok h.maps, bind_eq_ok.mpr ⟨_, wrGd_ok h.maps, ?_⟩⟩
    refine bind_eq_ok.mpr
      ⟨_, rdBlockbitmap_ok h.maps, bind_eq_ok.mpr ⟨_, rdInodebitmap_ok h.maps, ?_⟩⟩
    have hwrite : wrInd { s₂.tookInode c mi with currentDir := c } c = .ok s₃ := wrInd_ok h hc'
    have hdir : wrDir { s₃ with dir := dir } ((rootInode (d.vol.inode 1) b).blk 0) = .ok s := by
      rw [hblk]
      exact wrDir_ok h hb'
    refine bind_eq_ok.mpr ⟨_, hallocb, bind_eq_ok.mpr ⟨_, halloci, bind_eq_ok.mpr ⟨s₃, hwrite, ?_⟩⟩⟩
    exact bind_eq_ok.mpr ⟨_, rfl, bind_eq_ok.mpr ⟨dir, rfl, hdir⟩⟩
  have hfree : (4096 : UInt16) - 1 = 4095 := by decide
  refine ⟨s, hrun, h, ?_, rfl, rfl, rfl, hfree, hfree⟩
  show (Device.putBlock _ _ _).vol = _
  rw [Device.vol_putBlock hb']
  show Vol.setBlock (Device.putInode _ _ _).vol _ _ = _
  rw [Device.vol_putInode hc', vol_tookInode, hvol₂, hvol₁]
  rfl

theorem allocs_of_initRoot {d : Device} {s : Fs} (h : d.Room) (hrun : initRoot d = .ok s) :
    ∃ r r', allocBlock (rootStart d) = .ok r ∧ allocInode { r.2 with
      ind := { r.2.ind.setBlk 0 r.1 with blocks := r.2.ind.blocks + 1 } } = .ok r' := by
  have h1 : IsInode 1 := by decide
  have h0 : IsBlock 0 := by decide
  rw [initRoot] at hrun
  obtain ⟨s₁, hs₁, hrun⟩ := bind_eq_ok.mp hrun
  rw [rdInd_ok (by exact h) h1] at hs₁
  cases hs₁
  obtain ⟨s₂, hs₂, hrun⟩ := bind_eq_ok.mp hrun
  rw [rdDir_ok (by exact h) h0] at hs₂
  cases hs₂
  obtain ⟨s₃, hs₃, hrun⟩ := bind_eq_ok.mp hrun
  rw [rdGd_ok (by exact h.maps)] at hs₃
  cases hs₃
  obtain ⟨s₄, hs₄, hrun⟩ := bind_eq_ok.mp hrun
  rw [wrGd_ok (by exact h.maps)] at hs₄
  cases hs₄
  obtain ⟨s₅, hs₅, hrun⟩ := bind_eq_ok.mp hrun
  rw [rdBlockbitmap_ok (by exact h.maps)] at hs₅
  cases hs₅
  obtain ⟨s₆, hs₆, hrun⟩ := bind_eq_ok.mp hrun
  rw [rdInodebitmap_ok (by exact h.maps)] at hs₆
  cases hs₆
  obtain ⟨r, hallocb, hrun⟩ := bind_eq_ok.mp hrun
  obtain ⟨r', halloci, -⟩ := bind_eq_ok.mp hrun
  exact ⟨r, r', hallocb, halloci⟩

theorem of_initRoot {d : Device} {s : Fs} (h : d.Room) (hrun : initRoot d = .ok s) :
    ∃ mb mi b c, takeBit d.vol.blockMap 0 = .ok (mb, b) ∧ takeBit d.vol.inodeMap 0 = .ok (mi, c) ∧
      RootMade d s mb mi (.ofNat b) (.ofNat (c + 1)) := by
  obtain ⟨r, r', hallocb, halloci⟩ := allocs_of_initRoot h hrun
  have hfull : (4096 : UInt16) ≠ 0 := by decide
  have hcur : ((0 : UInt32) / 8).toNat = 0 := by decide
  have hcur' : (((1 : UInt32) - 1) / 8).toNat = 0 := by decide
  obtain ⟨mb, b, hb⟩ := takeBit_of_allocBlock (s := rootStart d) h.maps hfull hallocb
  rw [allocBlock_of_takeBit (s := rootStart d) h.maps hfull hb] at hallocb
  cases hallocb
  obtain ⟨mi, c, hc⟩ := takeBit_of_allocInode (by exact h.maps) hfull halloci
  rw [vol_rootStart, show (rootStart d).lastAllocBlock = 0 from rfl, hcur] at hb
  have hmap : ((rootStart d).tookBlock (.ofNat b) mb).dev.vol.inodeMap = d.vol.inodeMap := by
    rw [vol_tookBlock, vol_rootStart]
  have hc : takeBit ((rootStart d).tookBlock (.ofNat b) mb).dev.vol.inodeMap
      (((1 : UInt32) - 1) / 8).toNat = .ok (mi, c) := hc
  rw [hmap, hcur'] at hc
  obtain ⟨s', hs', hmade⟩ := initRoot_ok h hb hc
  rw [hrun] at hs'
  cases hs'
  exact ⟨mb, mi, b, c, hb, hc, hmade⟩

/-- The bitmaps are empty, and so is block 0 behind the first two slots. -/
structure Device.Clean (d : Device) : Prop where
  blockMap : d.vol.blockMap = .zero
  inodeMap : d.vol.inodeMap = .zero
  slots : ∀ j, 2 ≤ j → j < dirAmut → dirInode (d.vol.block 0) j = 0

theorem clean_zero (size : Nat) : (Device.zero size).Clean where
  blockMap := rfl
  inodeMap := rfl
  slots j _ _ := by
    rw [vol_zero_block]
    exact Bytes.get32_eq fun q hq => by
      unfold Bytes.get
      split <;> simp [Bytes.zero, byteOf]

/-- On a device of zeros `ext2_init` makes a consistent volume with a root directory. -/
theorem initRoot_spec (h : (Device.zero size).Room) :
    ∃ s, initRoot (.zero size) = .ok s ∧ Consistent s ∧ s.dev.vol.Live s.currentDir ∧
      has (s.dev.vol.inode s.currentDir).mode typeDir = true ∧
      (s.dev.vol.inode s.currentDir).blocks = 1 ∧
      (entries s.dev.vol (s.dev.vol.inode s.currentDir)).length = 2 ∧
      s.gdt.freeBlocksCount = 4095 ∧ s.gdt.freeInodesCount = 4095 := by
  have hfull : (4096 : UInt16) ≠ 0 := by decide
  have hcount : Counts 4096 Bytes.zero := by
    rw [Counts, used_zero]
    rfl
  have hzero := hcount.exists_clear hfull
  obtain ⟨mb, b, hb, hb4096, hclearb, hmb⟩ := takeBit_spec (show 0 < blkSize by decide) hzero
  obtain ⟨mi, c, hc, hc4096, hcleari, hmi⟩ := takeBit_spec (show 0 < blkSize by decide) hzero
  obtain ⟨s, hrun, hs⟩ := initRoot_ok h hb hc
  have hb' : (UInt32.ofNat b).toNat = b := by
    rw [UInt32.toNat_ofNat']
    omega
  have hc' : (UInt32.ofNat (c + 1)).toNat = c + 1 := by
    rw [UInt32.toNat_ofNat']
    omega
  generalize UInt32.ofNat b = b₀ at *
  generalize UInt32.ofNat (c + 1) = c₀ at *
  subst hb'
  have hroot : IsInode c₀ := by
    unfold IsInode inodeTableCount
    omega
  let x := rootInode ((Device.zero size).vol.inode 1) b₀
  have hblk : x.blk 0 = b₀ := rootInode_blk
  have hinode : s.dev.vol.inode c₀ = x := by
    rw [hs.vol]
    exact Function.update_self ..
  have hblock : s.dev.vol.block b₀ = rootBlock .zero c₀ := by
    rw [hs.vol]
    exact Function.update_self ..
  -- the root directory is the only inode in use, with one block
  have hlive : ∀ i, s.dev.vol.Live i ↔ i = c₀ := by
    intro i
    rw [Vol.Live, hs.vol]
    show IsInode i ∧ mi.bit (i.toNat - 1) = true ↔ i = c₀
    rw [hmi, bit_zero, Bool.false_or, decide_eq_true_eq]
    constructor
    · rintro ⟨hi, he⟩
      have hi1 := hi.1
      exact UInt32.toNat_inj.mp (by omega)
    · rintro rfl
      exact ⟨hroot, by omega⟩
  have hone : x.blocks.toNat = 1 := rfl
  have hk0 : ∀ k, k < x.blocks.toNat → k = 0 := fun k hk => by omega
  obtain ⟨hlist, hterm⟩ := rootBlock_spec hroot.ne_zero (clean_zero size).slots
  rw [vol_zero_block] at hlist hterm
  have hentries : (entries s.dev.vol x).length = 2 := by
    rw [entries, hone, List.range_one, List.flatMap_singleton, hblk, hblock, hlist]
    rfl
  have hsound : s.dev.vol.Sound := by
    refine ⟨fun hi => ?_, fun hi hk => ?_, fun hi hi' hk hk' _ => ?_, fun hi _ => ?_,
      fun hi _ hk => ?_⟩
    · rw [(hlive _).mp hi, hinode]
      refine ⟨by rw [hone]; decide, fun k hk => ?_⟩
      rw [hk0 k hk, hblk]
      exact hb4096
    · rw [(hlive _).mp hi, hinode] at hk ⊢
      rw [hk0 _ hk, hblk, hs.vol]
      show mb.bit b₀.toNat = true
      rw [hmb]
      simp
    · obtain rfl := (hlive _).mp hi
      obtain rfl := (hlive _).mp hi'
      rw [hinode] at hk hk'
      exact ⟨rfl, (hk0 _ hk).trans (hk0 _ hk').symm⟩
    · rw [(hlive _).mp hi, hinode, hentries]
      rfl
    · rw [(hlive _).mp hi, hinode] at hk ⊢
      rw [hk0 _ hk, hblk, hblock]
      exact hterm
  have hcons : Consistent s := by
    refine ⟨hs.room, hsound, ?_, ?_, ?_, ?_⟩
    · rw [hs.lastBlock]
      exact hb4096
    · rw [hs.lastInode]
      exact hroot
    · rw [hs.vol, hs.freeBlocks]
      exact hcount.take hfull hb4096 hclearb hmb
    · rw [hs.vol, hs.freeInodes]
      exact hcount.take hfull hc4096 hcleari hmi
  refine ⟨s, hrun, hcons, ?_, ?_, ?_, ?_, hs.freeBlocks, hs.freeInodes⟩
  · rw [hs.dir]
    exact (hlive c₀).mpr rfl
  · rw [hs.dir, hinode]
    show has (typeDir ||| rdAble ||| wrAble) typeDir = true
    decide
  · rw [hs.dir, hinode]
    rfl
  · rw [hs.dir, hinode]
    exact hentries

end Root

end OsWorkbench.Ext2
