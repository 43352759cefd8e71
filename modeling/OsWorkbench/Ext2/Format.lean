import OsWorkbench.Ext2.Create

/-!
# Formatting

What `ext2_init` leaves of the old content of a device. It writes the group descriptor, but
the bitmaps, block 0 and inode 1 are read back and go on in the new file system, so that the
result is independent of them only for a device whose bitmaps and whose slots of block 0 are
free.
-/

namespace OsWorkbench.Ext2

/-! ## A file in the root directory -/

/-- The first slot without an inode. -/
def firstFree (b : Block) : Option Nat := (List.range dirAmut).find? fun j => dirInode b j = 0

theorem of_firstFree {b : Block} {j : Nat} (h : firstFree b = some j) :
    j < dirAmut ∧ dirInode b j = 0 := by
  have hj := List.mem_range.mp (List.mem_of_find?_eq_some h)
  have hzero := List.find?_some h
  exact ⟨hj, by simpa using hzero⟩

/-- The slots of the root directory. -/
def Fs.rootSlots (s : Fs) : Block :=
  s.dev.vol.block ((s.dev.vol.inode s.currentDir).blk 0)

/-- The root directory has one block and the size of `n` entries. -/
structure Rooted (s : Fs) (n : Nat) : Prop where
  room : s.dev.Room
  root : s.dev.vol.Live s.currentDir
  blocks : (s.dev.vol.inode s.currentDir).blocks = 1
  size : (s.dev.vol.inode s.currentDir).size.toNat = dirSize * n
  few : n < dirAmut
  block : IsBlock ((s.dev.vol.inode s.currentDir).blk 0)
  marked : s.dev.vol.blockMap.bit ((s.dev.vol.inode s.currentDir).blk 0).toNat = true
  lastBlock : IsBlock s.lastAllocBlock
  lastInode : IsInode s.lastAllocInode

theorem Rooted.small {s : Fs} {n : Nat} (h : Rooted s n) :
    (s.dev.vol.inode s.currentDir).size.toNat < 512 := by
  have hsize := h.size
  have hfew := h.few
  unfold dirSize dirAmut at *
  omega

/-- The file `idx` was made in slot `j` of the root directory, which is `b` now. -/
structure FileMade (s s' : Fs) (mode idx : UInt32) (m b : Block) : Prop where
  room : s'.dev.Room
  vol : s'.dev.vol = { s.dev.vol with
    gd := s'.gdt
    inodeMap := m
    inode := Function.update (Function.update s.dev.vol.inode s.currentDir
      { s.dev.vol.inode s.currentDir with
        size := (s.dev.vol.inode s.currentDir).size + .ofNat dirSize })
      idx { s.dev.vol.inode idx with size := 0, blocks := 0, mode := mode }
    block := Function.update s.dev.vol.block ((s.dev.vol.inode s.currentDir).blk 0) b }
  dir : s'.currentDir = s.currentDir
  lastBlock : s'.lastAllocBlock = s.lastAllocBlock
  lastInode : s'.lastAllocInode = idx
  freeBlocks : s'.gdt.freeBlocksCount = s.gdt.freeBlocksCount
  freeInodes : s'.gdt.freeInodesCount = s.gdt.freeInodesCount - 1

section Make

variable {s s' : Fs} {mode : UInt32} {name : CStr} {m : Block} {k n : Nat}

theorem findFree_some {j : Nat} (h : s.dev.Room) (hb : IsBlock (s.ind.blk 0))
    (hfind : firstFree (s.dev.vol.block (s.ind.blk 0)) = some j) :
    findFree 1 0 s = .ok ((0, j), { s with dir := s.dev.vol.block (s.ind.blk 0) }) := by
  unfold firstFree at hfind
  rw [findFree, inBounds_bind (by decide), rdDir_ok h hb, ok_bind]
  simp only [hfind]
  rfl

theorem findFree_none (h : s.dev.Room) (hb : IsBlock (s.ind.blk 0))
    (hfind : firstFree (s.dev.vol.block (s.ind.blk 0)) = none) :
    findFree 1 0 s = .error .badAccess := by
  unfold firstFree at hfind
  rw [findFree, inBounds_bind (by decide), rdDir_ok h hb, ok_bind]
  simp only [hfind]
  rfl

theorem isInode_ofNat (hk : k < 8 * 512) : IsInode (.ofNat (k + 1)) := by
  unfold IsInode inodeTableCount
  rw [UInt32.toNat_ofNat']
  omega

theorem isBlock_ofNat (hk : k < 8 * 512) : IsBlock (.ofNat k) := by
  unfold IsBlock dataBlockCount
  rw [UInt32.toNat_ofNat']
  omega

theorem toNat_ofNat_of_lt {a : Nat} (ha : a < 8 * 512 + 1) : (UInt32.ofNat a).toNat = a := by
  rw [UInt32.toNat_ofNat']
  omega

theorem Rooted.ne_dir (h : Rooted s n) (hk : k < 8 * 512)
    (hclear : s.dev.vol.inodeMap.bit k = false) :
    UInt32.ofNat (k + 1) ≠ s.currentDir := by
  intro he
  have hset := h.root.2
  rw [← he, toNat_ofNat_of_lt (by omega), Nat.add_sub_cancel, hclear] at hset
  cases hset

/-- With one block and less than 512 bytes the root directory takes the free slot. -/
theorem Rooted.create_eq (h : Rooted s n) : create s s.currentDir name mode = (do
    let r ← enterFree { s with ind := s.dev.vol.inode s.currentDir } name mode
    let s' ← wrInd { r.2 with ind.size := r.2.ind.size + .ofNat dirSize } s.currentDir
    let s'' ← indPrepare s' r.1 s.currentDir mode
    return (r.1, s'')) := by
  have hsmall : (s.dev.vol.inode s.currentDir).size < 4096 := by
    have hlt := h.small
    rw [UInt32.lt_iff_toNat_lt]
    exact hlt.trans (by decide)
  have hne : (s.dev.vol.inode s.currentDir).size ≠ (s.dev.vol.inode s.currentDir).blocks * 512 := by
    rw [h.blocks]
    intro he
    have hlt := h.small
    rw [he] at hlt
    exact absurd hlt (by decide)
  rw [create, rdInd_ok h.room h.root.1, ok_bind, check_pos hsmall, ok_bind, if_pos hne]

theorem Rooted.create_ok {j : Nat} (h : Rooted s n) (hfree : s.gdt.freeInodesCount ≠ 0)
    (hdir : has mode typeDir = false)
    (hfile : has mode typeFile = true) (hlen : name.length < 20)
    (hfind : firstFree s.rootSlots = some j)
    (htake : takeBit s.dev.vol.inodeMap ((s.lastAllocInode - 1) / 8).toNat = .ok (m, k)) :
    ∃ s' b, create s s.currentDir name mode = .ok (.ofNat (k + 1), s') ∧
      fillEntry s.rootSlots j (.ofNat (k + 1)) name mode = .ok b ∧
      FileMade s s' mode (.ofNat (k + 1)) m b := by
  obtain ⟨hk, hclear, -⟩ := takeBit_bits (inodeByte_lt h.lastInode) htake
  have hidx := isInode_ofNat hk
  have hne := h.ne_dir hk hclear
  have halloc := allocInode_of_takeBit
    (s := { s with ind := s.dev.vol.inode s.currentDir, dir := s.rootSlots }) h.room.maps hfree
      htake
  generalize UInt32.ofNat (k + 1) = idx at *
  obtain ⟨b, hfill, -⟩ := fillEntry_ok s.rootSlots (of_firstFree hfind).1 idx mode hlen
  let x := s.dev.vol.inode s.currentDir
  let s₁ := Fs.tookInode { s with ind := x, dir := s.rootSlots } idx m
  let s₂ : Fs := { s₁ with dir := b, dev := s₁.dev.putBlock (x.blk 0) b }
  let x' : Inode := { x with size := x.size + .ofNat dirSize }
  let s₃ : Fs := { s₂ with ind := x', dev := s₂.dev.putInode s.currentDir x' }
  have hvol₃ : s₃.dev.vol = { s.dev.vol with
      gd := s₁.gdt
      inodeMap := m
      inode := Function.update s.dev.vol.inode s.currentDir x'
      block := Function.update s.dev.vol.block (x.blk 0) b } := by
    show (Device.putInode _ _ _).vol = _
    rw [Device.vol_putInode h.root.1]
    show Vol.setInode (Device.putBlock _ _ _).vol _ _ = _
    rw [Device.vol_putBlock h.block, vol_tookInode]
    rfl
  let y : Inode := { s.dev.vol.inode idx with size := 0, blocks := 0, mode := mode }
  let s₄ : Fs := { s₃ with ind := y, dev := s₃.dev.putInode idx y }
  have henter : enterFree { s with ind := x } name mode = .ok (idx, s₂) := by
    have hfound : findFree x.blocks.toNat 0 { s with ind := x } =
        .ok ((0, j), { s with ind := x, dir := s.rootSlots }) := by
      rw [show x.blocks = 1 from h.blocks]
      exact findFree_some (s := { s with ind := x }) h.room h.block hfind
    have hwrite : wrDir { s₁ with dir := b } (x.blk 0) = .ok s₂ := wrDir_ok h.room h.block
    exact bind_eq_ok.mpr ⟨_, hfound, bind_eq_ok.mpr ⟨_, halloc, bind_eq_ok.mpr ⟨b, hfill,
      bind_eq_ok.mpr ⟨s₂, hwrite, rfl⟩⟩⟩⟩
  have hprepare : indPrepare s₃ idx s.currentDir mode = .ok s₄ := by
    have hread : rdInd s₃ idx = .ok { s₃ with ind := s.dev.vol.inode idx } := by
      have hinode : s₃.dev.vol.inode idx = s.dev.vol.inode idx := by
        rw [hvol₃]
        exact Function.update_of_ne hne ..
      rw [rdInd_ok (by exact h.room) hidx, hinode]
    rw [indPrepare, hread, ok_bind, if_neg (by rw [hdir]; decide), if_pos hfile]
    exact wrInd_ok (by exact h.room) hidx
  have hwrite : wrInd { s₂ with ind := x' } s.currentDir = .ok s₃ := wrInd_ok h.room h.root.1
  refine ⟨s₄, b, ?_, hfill, h.room, ?_, rfl, rfl, rfl, rfl, rfl⟩
  · rw [h.create_eq]
    exact bind_eq_ok.mpr
      ⟨_, henter, bind_eq_ok.mpr ⟨s₃, hwrite, bind_eq_ok.mpr ⟨s₄, hprepare, rfl⟩⟩⟩
  · show (Device.putInode _ _ _).vol = _
    rw [Device.vol_putInode hidx, hvol₃]
    rfl

theorem Rooted.of_create {idx : UInt32} (h : Rooted s n) (hfree : s.gdt.freeInodesCount ≠ 0)
    (hdir : has mode typeDir = false)
    (hfile : has mode typeFile = true) (hlen : name.length < 20)
    (hrun : create s s.currentDir name mode = .ok (idx, s')) :
    ∃ j m k b, firstFree s.rootSlots = some j ∧
      takeBit s.dev.vol.inodeMap ((s.lastAllocInode - 1) / 8).toNat = .ok (m, k) ∧
      idx = .ofNat (k + 1) ∧ fillEntry s.rootSlots j idx name mode = .ok b ∧
      FileMade s s' mode idx m b := by
  have hcreate := hrun
  rw [h.create_eq] at hrun
  obtain ⟨_, henter, -⟩ := bind_eq_ok.mp hrun
  obtain ⟨found, hfound, henter⟩ := bind_eq_ok.mp henter
  obtain ⟨r, halloc, -⟩ := bind_eq_ok.mp henter
  have hone : (s.dev.vol.inode s.currentDir).blocks.toNat = 1 := by
    rw [h.blocks]
    rfl
  cases hfind : firstFree s.rootSlots with
  | none =>
    have hnone : findFree (s.dev.vol.inode s.currentDir).blocks.toNat 0
        { s with ind := s.dev.vol.inode s.currentDir } = .error .badAccess := by
      rw [hone]
      exact findFree_none (s := { s with ind := s.dev.vol.inode s.currentDir }) h.room h.block hfind
    rw [hnone] at hfound
    cases hfound
  | some j =>
    have hsome : findFree (s.dev.vol.inode s.currentDir).blocks.toNat 0
        { s with ind := s.dev.vol.inode s.currentDir } =
          .ok ((0, j), { s with ind := s.dev.vol.inode s.currentDir, dir := s.rootSlots }) := by
      rw [hone]
      exact findFree_some (s := { s with ind := s.dev.vol.inode s.currentDir }) h.room h.block hfind
    rw [hsome] at hfound
    cases hfound
    obtain ⟨m, k, htake⟩ := takeBit_of_allocInode
      (s := { s with ind := s.dev.vol.inode s.currentDir, dir := s.rootSlots }) h.room.maps hfree
        halloc
    obtain ⟨s'', b, hrun', hfill, hmade⟩ := h.create_ok hfree hdir hfile hlen hfind htake
    rw [hcreate] at hrun'
    cases hrun'
    exact ⟨j, m, k, b, rfl, htake, rfl, hfill, hmade⟩

end Make

/-! ## A text of one block -/

/-- The text of `len` bytes was written to the empty file `idx`, in block `n`, which holds `b`
now. -/
structure TextWritten (s s' : Fs) (idx n len : UInt32) (m b : Block) : Prop where
  room : s'.dev.Room
  vol : s'.dev.vol = { s.dev.vol with
    gd := s'.gdt
    blockMap := m
    inode := Function.update s.dev.vol.inode idx
      { (s.dev.vol.inode idx).setBlk 0 n with blocks := 1, size := len }
    block := Function.update s.dev.vol.block n b }
  dir : s'.currentDir = s.currentDir
  lastBlock : s'.lastAllocBlock = n
  lastInode : s'.lastAllocInode = s.lastAllocInode
  freeBlocks : s'.gdt.freeBlocksCount = s.gdt.freeBlocksCount - 1
  freeInodes : s'.gdt.freeInodesCount = s.gdt.freeInodesCount

section Text

variable {s s' : Fs} {idx len : UInt32} {buf : Nat → UInt8} {m : Block} {k : Nat}

theorem copyBlock_spec (buf : Nat → UInt8) {n k ret len : Nat} {b : Block} (hn : k + n = blkSize)
    (hk : k = ret)
    (hlen : len ≤ blkSize) (hret : ret ≤ len) :
    (copyBlock buf len n k ret b).1 = len ∧
      ∀ p, ((copyBlock buf len n k ret b).2).get p =
        if k ≤ p ∧ p < len then buf p else b.get p := by
  induction n generalizing k ret b with
  | zero =>
    obtain rfl : ret = len := by omega
    refine ⟨rfl, fun p => ?_⟩
    rw [if_neg (by omega)]
    rfl
  | succ n ih =>
    subst hk
    rw [copyBlock]
    by_cases hlt : k < len
    · rw [if_pos ⟨hlt, by omega⟩]
      obtain ⟨hret', hget⟩ := ih (b := b.set k (buf k)) (k := k + 1) (by omega) rfl (by omega)
      refine ⟨hret', fun p => ?_⟩
      rw [hget]
      by_cases hp : p = k
      · subst hp
        rw [if_neg (by omega), if_pos ⟨le_rfl, hlt⟩,
          Bytes.get_set_self _ _ (by unfold blkSize at *; omega)]
      · rw [Bytes.get_set_ne _ _ hp]
        exact if_congr (by omega) rfl rfl
    · rw [if_neg (by omega)]
      refine ⟨by omega, fun p => ?_⟩
      rw [if_neg (by omega)]

/-- A text that fits into one block takes one step of each loop. -/
theorem write_text_eq (h : s.dev.Room) (hidx : IsInode idx)
    (hmode : has (s.dev.vol.inode idx).mode wrAble = true)
    (hempty : (s.dev.vol.inode idx).blocks = 0) (hpos : 0 < len.toNat) (hlen : len.toNat ≤ 512) :
    write s idx 0 buf len = (do
      let s₁ ← growBlocks 1 { s with ind := s.dev.vol.inode idx }
      let r ← writeBlocks buf len.toNat 0 1 0 1 0 0 s₁
      let s₂ ← wrInd { r.2 with ind.size := .ofNat ((0 : UInt64).toNat + len.toNat) } idx
      return (r.1, s₂)) := by
  have hneed :
      (len.toNat + (0 : UInt64).toNat + (blkSize - 1)) % 2 ^ 64 / blkSize % 2 ^ 32 = 1 := by
    show (len.toNat + 0 + 511) % 2 ^ 64 / 512 % 2 ^ 32 = 1
    omega
  have hwr : ¬has (s.dev.vol.inode idx).mode wrAble = false := by
    rw [hmode]
    decide
  have hle : (s.dev.vol.inode idx).blocks.toNat ≤ 1 := by
    rw [hempty]
    decide
  have hmore : 1 - (s.dev.vol.inode idx).blocks.toNat = 1 := by
    rw [hempty]
    rfl
  have hskip : toInt ((0 : UInt64).toNat / blkSize) = 0 := by decide
  have hfirst : sub32 ((0 : UInt64).toNat % 2 ^ 32)
      ((0 : UInt64).toNat / blkSize * blkSize % 2 ^ 32) = 0 := by decide
  have hone : toInt 1 = 1 := by decide
  rw [write, rdInd_ok h hidx, ok_bind, if_neg hwr]
  simp only [hneed, hskip, hfirst, hone]
  rw [if_pos hle, hmore]
  rfl

theorem write_text_ok (buf : Nat → UInt8) (h : s.dev.Room) (hidx : IsInode idx)
    (hmode : has (s.dev.vol.inode idx).mode wrAble = true)
    (hempty : (s.dev.vol.inode idx).blocks = 0) (hpos : 0 < len.toNat) (hlen : len.toNat ≤ 512)
    (hfree : s.gdt.freeBlocksCount ≠ 0) (hlast : IsBlock s.lastAllocBlock)
    (htake : takeBit s.dev.vol.blockMap (s.lastAllocBlock / 8).toNat = .ok (m, k)) :
    ∃ s' b, write s idx 0 buf len = .ok (len.toNat, s') ∧
      (∀ p, p < len.toNat → b.get p = buf p) ∧ TextWritten s s' idx (.ofNat k) len m b := by
  obtain ⟨hk, -, -⟩ := takeBit_bits (blockByte_lt hlast) htake
  have hb := isBlock_ofNat hk
  let x := s.dev.vol.inode idx
  have halloc := allocBlock_of_takeBit (s := { s with ind := x }) h.maps hfree htake
  generalize UInt32.ofNat k = n at *
  let x' : Inode := { x.setBlk 0 n with blocks := 1 }
  have hblk : x'.blk 0 = n := by simp [x', Inode.setBlk, Inode.blk]
  let s₁ : Fs := { Fs.tookBlock { s with ind := x } n m with ind := x' }
  have hvol₁ : s₁.dev.vol = { s.dev.vol with gd := s₁.gdt, blockMap := m } := vol_tookBlock n m
  let b₀ := s.dev.vol.block n
  let r := copyBlock buf len.toNat blkSize 0 0 b₀
  obtain ⟨hret, hget⟩ := copyBlock_spec buf (b := b₀) (Nat.zero_add blkSize)
    (Eq.refl 0) hlen (Nat.zero_le _)
  let s₂ : Fs := { s₁ with datablockbuf := r.2, dev := s₁.dev.putBlock n r.2 }
  let x'' : Inode := { x' with size := len }
  let s₃ : Fs := { s₂ with ind := x'', dev := s₂.dev.putInode idx x'' }
  have hgrow : growBlocks 1 { s with ind := x } = .ok s₁ := by
    refine bind_eq_ok.mpr ⟨_, halloc, ?_⟩
    have hx : x.blocks = 0 := hempty
    have hlt : x.blocks.toNat < ext2NBlocks := by
      rw [hx]
      decide
    refine (inBounds_bind (β := Fs) hlt).trans ?_
    have hind : ({ x.setBlk x.blocks.toNat n with blocks := x.blocks + 1 } : Inode) = x' := by
      rw [hx]
      rfl
    exact congrArg (fun i => Except.ok { Fs.tookBlock { s with ind := x } n m with ind := i }) hind
  have hwrite : writeBlocks buf len.toNat 0 1 0 1 0 0 s₁ = .ok (len.toNat, s₂) := by
    have hread : rdDatablock s₁ (x'.blk 0) = .ok { s₁ with datablockbuf := b₀ } := by
      rw [hblk, rdDatablock_ok (by exact h) hb, hvol₁]
    have hput : wrDatablock { s₁ with datablockbuf := r.2 } (x'.blk 0) = .ok s₂ := by
      rw [hblk]
      exact wrDatablock_ok (by exact h) hb
    rw [writeBlocks, inBounds_bind (by decide)]
    refine bind_eq_ok.mpr ⟨_, hread, bind_eq_ok.mpr ⟨r, rfl, bind_eq_ok.mpr ⟨s₂, hput, ?_⟩⟩⟩
    show Except.ok (r.1, s₂) = _
    rw [hret]
  have hsave : wrInd { s₂ with ind := x'' } idx = .ok s₃ := wrInd_ok (by exact h) hidx
  have hsize : UInt32.ofNat ((0 : UInt64).toNat + len.toNat) = len := by
    rw [show (0 : UInt64).toNat = 0 from rfl, Nat.zero_add, UInt32.ofNat_toNat]
  refine ⟨s₃, r.2, ?_, fun p hp => (hget p).trans (if_pos ⟨Nat.zero_le p, hp⟩), h, ?_, rfl, rfl,
    rfl, rfl, rfl⟩
  · rw [write_text_eq h hidx hmode hempty hpos hlen]
    refine bind_eq_ok.mpr ⟨s₁, hgrow, bind_eq_ok.mpr ⟨(len.toNat, s₂), hwrite, ?_⟩⟩
    refine bind_eq_ok.mpr ⟨s₃, ?_, rfl⟩
    rw [hsize]
    exact hsave
  · show (Device.putInode _ _ _).vol = _
    rw [Device.vol_putInode hidx]
    show Vol.setInode (Device.putBlock _ _ _).vol _ _ = _
    rw [Device.vol_putBlock hb, hvol₁]
    rfl

theorem of_write_text {ret : Nat} (h : s.dev.Room) (hidx : IsInode idx)
    (hmode : has (s.dev.vol.inode idx).mode wrAble = true)
    (hempty : (s.dev.vol.inode idx).blocks = 0) (hpos : 0 < len.toNat) (hlen : len.toNat ≤ 512)
    (hfree : s.gdt.freeBlocksCount ≠ 0) (hlast : IsBlock s.lastAllocBlock)
    (hrun : write s idx 0 buf len = .ok (ret, s')) :
    ∃ m k b, takeBit s.dev.vol.blockMap (s.lastAllocBlock / 8).toNat = .ok (m, k) ∧
      (∀ p, p < len.toNat → b.get p = buf p) ∧ TextWritten s s' idx (.ofNat k) len m b := by
  have hwrite := hrun
  rw [write_text_eq h hidx hmode hempty hpos hlen] at hrun
  obtain ⟨_, hgrow, -⟩ := bind_eq_ok.mp hrun
  obtain ⟨r, halloc, -⟩ := bind_eq_ok.mp hgrow
  obtain ⟨m, k, htake⟩ := takeBit_of_allocBlock (s := { s with ind := s.dev.vol.inode idx })
    h.maps hfree halloc
  obtain ⟨s'', b, hrun', hget, hwritten⟩ :=
    write_text_ok buf h hidx hmode hempty hpos hlen hfree hlast htake
  rw [hwrite] at hrun'
  cases hrun'
  exact ⟨m, k, b, htake, hget, hwritten⟩

end Text

/-! ## One step after the other -/

section Steps

variable {s s' : Fs} {mode idx len : UInt32} {m b : Block} {k n : Nat}

theorem RootMade.rooted {d : Device} {mb mi : Block} {b c : Nat}
    (h : RootMade d s mb mi (.ofNat b) (.ofNat (c + 1)))
    (hb : takeBit d.vol.blockMap 0 = .ok (mb, b)) (hc : takeBit d.vol.inodeMap 0 = .ok (mi, c)) :
    Rooted s 2 := by
  obtain ⟨hb4096, -, hbits⟩ := takeBit_bits (by decide) hb
  obtain ⟨hc4096, -, hbits'⟩ := takeBit_bits (by decide) hc
  have hinode : s.dev.vol.inode s.currentDir = rootInode (d.vol.inode 1) (.ofNat b) := by
    rw [h.vol, h.dir]
    exact Function.update_self ..
  have hblk : (s.dev.vol.inode s.currentDir).blk 0 = .ofNat b := by
    rw [hinode]
    exact rootInode_blk (x := d.vol.inode 1)
  exact {
    room := h.room
    root := by
      rw [h.dir]
      refine ⟨isInode_ofNat hc4096, ?_⟩
      rw [h.vol, toNat_ofNat_of_lt (by omega)]
      show mi.bit (c + 1 - 1) = true
      rw [Nat.add_sub_cancel, hbits']
      simp
    blocks := by
      rw [hinode]
      rfl
    size := by
      rw [hinode]
      rfl
    few := by decide
    block := by
      rw [hblk]
      exact isBlock_ofNat hb4096
    marked := by
      rw [hblk, h.vol, toNat_ofNat_of_lt (by omega)]
      show mb.bit b = true
      rw [hbits]
      simp
    lastBlock := by
      rw [h.lastBlock]
      exact isBlock_ofNat hb4096
    lastInode := by
      rw [h.lastInode]
      exact isInode_ofNat hc4096 }

theorem RootMade.numbered {d : Device} {s : Fs} {mb mi : Block} {b c : UInt32}
    (h : RootMade d s mb mi b c) (hb : IsBlock b) (hall : ∀ i, (d.vol.inode i).Numbered)
    (i : UInt32) : (s.dev.vol.inode i).Numbered := by
  rw [h.vol]
  show Inode.Numbered (Function.update d.vol.inode c _ i)
  rcases eq_or_ne i c with rfl | hi
  · rw [Function.update_self]
    exact (hall 1).setBlk hb 0
  · rw [Function.update_of_ne hi]
    exact hall i

theorem RootMade.rootSlots {d : Device} {mb mi : Block} {b c : UInt32}
    (h : RootMade d s mb mi b c) :
    s.rootSlots = rootBlock (d.vol.block 0) c := by
  have hinode : s.dev.vol.inode s.currentDir = rootInode (d.vol.inode 1) b := by
    rw [h.vol, h.dir]
    exact Function.update_self ..
  rw [Fs.rootSlots, hinode, rootInode_blk, h.vol]
  exact Function.update_self ..

namespace FileMade

theorem inode_self (h : FileMade s s' mode idx m b) : s'.dev.vol.inode idx =
    { s.dev.vol.inode idx with size := 0, blocks := 0, mode := mode } := by
  rw [h.vol]
  exact Function.update_self ..

theorem inode_dir (h : FileMade s s' mode idx m b) (hne : idx ≠ s.currentDir) :
    s'.dev.vol.inode s'.currentDir = { s.dev.vol.inode s.currentDir with
      size := (s.dev.vol.inode s.currentDir).size + .ofNat dirSize } := by
  rw [h.vol, h.dir]
  exact (Function.update_of_ne hne.symm ..).trans (Function.update_self ..)

theorem inode_of_ne (h : FileMade s s' mode idx m b) {i : UInt32} (hi : i ≠ idx)
    (hd : i ≠ s.currentDir) : s'.dev.vol.inode i = s.dev.vol.inode i := by
  rw [h.vol]
  exact (Function.update_of_ne hi ..).trans (Function.update_of_ne hd ..)

theorem numbered (h : FileMade s s' mode idx m b) (hall : ∀ i, (s.dev.vol.inode i).Numbered)
    (i : UInt32) : (s'.dev.vol.inode i).Numbered := by
  rcases eq_or_ne i idx with rfl | hi
  · rw [h.inode_self]
    exact hall i
  · rcases eq_or_ne i s.currentDir with rfl | hd
    · rw [← h.dir, h.inode_dir hi.symm]
      exact hall _
    · rw [h.inode_of_ne hi hd]
      exact hall i

theorem rootSlots (h : FileMade s s' mode idx m b) (hne : idx ≠ s.currentDir) :
    s'.rootSlots = b := by
  rw [Fs.rootSlots, h.inode_dir hne, h.vol]
  exact Function.update_self ..

theorem block_of_ne (h : FileMade s s' mode idx m b) {c : UInt32}
    (hc : c ≠ (s.dev.vol.inode s.currentDir).blk 0) : s'.dev.vol.block c = s.dev.vol.block c := by
  rw [h.vol]
  exact Function.update_of_ne hc ..

theorem rooted (h : FileMade s s' mode (.ofNat (k + 1)) m b) (hs : Rooted s n)
    (hn : n + 1 < dirAmut)
    (htake : takeBit s.dev.vol.inodeMap ((s.lastAllocInode - 1) / 8).toNat = .ok (m, k)) :
    Rooted s' (n + 1) := by
  obtain ⟨hk, hclear, hbits⟩ := takeBit_bits (inodeByte_lt hs.lastInode) htake
  have hinode := h.inode_dir (hs.ne_dir hk hclear)
  exact {
    room := h.room
    root := by
      rw [h.dir, h.vol]
      refine ⟨hs.root.1, ?_⟩
      show m.bit _ = true
      rw [hbits, hs.root.2, Bool.true_or]
    blocks := by
      rw [hinode]
      exact hs.blocks
    size := by
      rw [hinode]
      show ((s.dev.vol.inode s.currentDir).size + UInt32.ofNat dirSize).toNat = _
      have hsize := hs.size
      rw [UInt32.toNat_add, show (UInt32.ofNat dirSize).toNat = 32 from rfl]
      unfold dirSize dirAmut at *
      omega
    few := hn
    block := by
      rw [hinode]
      exact hs.block
    marked := by
      rw [hinode, h.vol]
      exact hs.marked
    lastBlock := by
      rw [h.lastBlock]
      exact hs.lastBlock
    lastInode := by
      rw [h.lastInode]
      exact isInode_ofNat hk }

end FileMade

namespace TextWritten

variable {n' : UInt32}

theorem inode_self (h : TextWritten s s' idx n' len m b) : s'.dev.vol.inode idx =
    { (s.dev.vol.inode idx).setBlk 0 n' with blocks := 1, size := len } := by
  rw [h.vol]
  exact Function.update_self ..

theorem inode_of_ne (h : TextWritten s s' idx n' len m b) {i : UInt32} (hi : i ≠ idx) :
    s'.dev.vol.inode i = s.dev.vol.inode i := by
  rw [h.vol]
  exact Function.update_of_ne hi ..

theorem numbered (h : TextWritten s s' idx n' len m b) (hn : IsBlock n')
    (hall : ∀ i, (s.dev.vol.inode i).Numbered) (i : UInt32) : (s'.dev.vol.inode i).Numbered := by
  rcases eq_or_ne i idx with rfl | hi
  · rw [h.inode_self]
    exact (hall i).setBlk hn 0
  · rw [h.inode_of_ne hi]
    exact hall i

theorem block_self (h : TextWritten s s' idx n' len m b) : s'.dev.vol.block n' = b := by
  rw [h.vol]
  exact Function.update_self ..

theorem block_of_ne (h : TextWritten s s' idx n' len m b) {c : UInt32} (hc : c ≠ n') :
    s'.dev.vol.block c = s.dev.vol.block c := by
  rw [h.vol]
  exact Function.update_of_ne hc ..

theorem inode_dir (h : TextWritten s s' idx n' len m b) (hne : idx ≠ s.currentDir) :
    s'.dev.vol.inode s'.currentDir = s.dev.vol.inode s.currentDir := by
  rw [h.dir]
  exact h.inode_of_ne hne.symm

theorem rooted (h : TextWritten s s' idx (.ofNat k) len m b) (hs : Rooted s n)
    (hne : idx ≠ s.currentDir)
    (htake : takeBit s.dev.vol.blockMap (s.lastAllocBlock / 8).toNat = .ok (m, k)) :
    Rooted s' n := by
  obtain ⟨hk, hclear, hbits⟩ := takeBit_bits (blockByte_lt hs.lastBlock) htake
  have hinode := h.inode_dir hne
  exact {
    room := h.room
    root := by
      rw [h.dir, h.vol]
      exact hs.root
    blocks := by
      rw [hinode]
      exact hs.blocks
    size := by
      rw [hinode]
      exact hs.size
    few := hs.few
    block := by
      rw [hinode]
      exact hs.block
    marked := by
      rw [hinode, h.vol]
      show m.bit _ = true
      rw [hbits, hs.marked, Bool.true_or]
    lastBlock := by
      rw [h.lastBlock]
      exact isBlock_ofNat hk
    lastInode := by
      rw [h.lastInode]
      exact hs.lastInode }

/-- The block of a text is none of the root directory. -/
theorem rootSlots (h : TextWritten s s' idx (.ofNat k) len m b) (hs : Rooted s n)
    (hne : idx ≠ s.currentDir) (hk : k < 8 * 512) (hclear : s.dev.vol.blockMap.bit k = false) :
    s'.rootSlots = s.rootSlots := by
  rw [Fs.rootSlots, h.inode_dir hne, Fs.rootSlots]
  refine h.block_of_ne fun he => ?_
  have hmarked := hs.marked
  rw [he, toNat_ofNat_of_lt (by omega), hclear] at hmarked
  cases hmarked

end TextWritten

end Steps

/-! ## The numbers that are given out -/

/-- The bits that one search after the other takes. -/
inductive Takes : Block → Nat → List Nat → Block → Prop
  | nil (m : Block) (cur : Nat) : Takes m cur [] m
  | cons {m m' m'' : Block} {cur k : Nat} {ks : List Nat} : takeBit m cur = .ok (m', k) →
      Takes m' (k / 8) ks m'' → Takes m cur (k :: ks) m''

namespace Takes

variable {m m' m'' : Block} {cur : Nat} {ks ks' : List Nat}

theorem spec (h : Takes m cur ks m') (hcur : cur < blkSize) :
    ks.Nodup ∧ (∀ k ∈ ks, k < 8 * 512 ∧ m.bit k = false) ∧
      (∀ l, m'.bit l = (m.bit l || decide (l ∈ ks))) ∧ m'.used.card = m.used.card + ks.length := by
  induction h with
  | nil m cur => simp
  | @cons m m' m'' cur k ks htake _ ih =>
    obtain ⟨hk, hclear, hbits⟩ := takeBit_bits hcur htake
    obtain ⟨hnodup, hclears, hbits', hcard⟩ := ih (by unfold blkSize; omega)
    refine ⟨List.nodup_cons.mpr ⟨fun hmem => ?_, hnodup⟩, fun l hl => ?_, fun l => ?_, ?_⟩
    · have hset := (hclears k hmem).2
      rw [hbits] at hset
      simp at hset
    · rcases List.mem_cons.mp hl with rfl | hl
      · exact ⟨hk, hclear⟩
      · obtain ⟨hlt, hset⟩ := hclears l hl
        rw [hbits, Bool.or_eq_false_iff] at hset
        exact ⟨hlt, hset.1⟩
    · rw [hbits', hbits, Bool.or_assoc]
      simp [List.mem_cons]
    · rw [hcard, Bytes.card_used_insert hk hclear fun l _ => hbits l, List.length_cons]
      omega

/-- There are as many numbers as there are clear bits. -/
theorem exists_of_card {n : Nat} (h : m.used.card + n ≤ 8 * 512) (hcur : cur < blkSize) :
    ∃ ks m', ks.length = n ∧ Takes m cur ks m' := by
  induction n generalizing m cur with
  | zero => exact ⟨[], m, rfl, .nil m cur⟩
  | succ n ih =>
    obtain ⟨m', k, htake, hk, hclear, hbits⟩ := takeBit_spec hcur
      (Bytes.exists_clear (m := m) (by omega))
    have hcard := Bytes.card_used_insert hk hclear fun l _ => hbits l
    obtain ⟨ks, m'', hlen, htakes⟩ := ih (show m'.used.card + n ≤ 8 * 512 by omega)
      (show k / 8 < blkSize by unfold blkSize; omega)
    exact ⟨k :: ks, m'', by rw [List.length_cons, hlen], .cons htake htakes⟩

/-- The searches are deterministic. -/
theorem det (h : Takes m cur ks m') (h' : Takes m cur ks' m'') (hlen : ks.length = ks'.length) :
    ks = ks' ∧ m' = m'' := by
  induction h generalizing ks' with
  | nil m cur =>
    cases h' with
    | nil => exact ⟨rfl, rfl⟩
    | cons _ _ => cases hlen
  | cons htake _ ih =>
    cases h' with
    | nil => cases hlen
    | cons htake' h' =>
      rw [htake] at htake'
      cases htake'
      obtain ⟨rfl, rfl⟩ := ih h' (Nat.succ.inj hlen)
      exact ⟨rfl, rfl⟩

end Takes

/-! ## The file system that is made -/

def fileMode : UInt32 := typeFile ||| rdAble ||| wrAble

/-- A file of one block `n` that holds the text. -/
structure HoldsText (v : Vol) (i n : UInt32) (text : CStr) : Prop where
  mode : (v.inode i).mode = fileMode
  blocks : (v.inode i).blocks = 1
  size : (v.inode i).size = .ofNat text.length
  blk : (v.inode i).blk 0 = n
  text : ∀ p, p < text.length → (v.block n).get p = text.get p

theorem HoldsText.of_eq {v v' : Vol} {i n : UInt32} {text : CStr} (h : HoldsText v i n text)
    (hi : v'.inode i = v.inode i) (hn : v'.block n = v.block n) : HoldsText v' i n text where
  mode := by rw [hi, h.mode]
  blocks := by rw [hi, h.blocks]
  size := by rw [hi, h.size]
  blk := by rw [hi, h.blk]
  text p hp := by rw [hn, h.text p hp]

/-- What `ext2_init` makes of the device `d`: it takes the blocks `bs` and the bits `cs` of the
inode map, and enters the files in the slots `js`. -/
structure Made (d : Device) (name : CStr) (s : Fs) (b₀ b₁ b₂ c₀ c₁ c₂ j₁ j₂ : Nat) : Prop where
  rooted : Rooted s 4
  blocks : Takes d.vol.blockMap 0 [b₀, b₁, b₂] s.dev.vol.blockMap
  inodes : Takes d.vol.inodeMap 0 [c₀, c₁, c₂] s.dev.vol.inodeMap
  dir : s.currentDir = .ofNat (c₀ + 1)
  root : (s.dev.vol.inode s.currentDir).blk 0 = .ofNat b₀
  rootMode : (s.dev.vol.inode s.currentDir).mode = typeDir ||| rdAble ||| wrAble
  hello : HoldsText s.dev.vol (.ofNat (c₁ + 1)) (.ofNat b₁) helloStr
  label : HoldsText s.dev.vol (.ofNat (c₂ + 1)) (.ofNat b₂) labelStr
  slots : ∃ b, firstFree (rootBlock (d.vol.block 0) (.ofNat (c₀ + 1))) = some j₁ ∧
    fillEntry (rootBlock (d.vol.block 0) (.ofNat (c₀ + 1))) j₁ (.ofNat (c₁ + 1)) (.lit "hello.cpp")
      fileMode = .ok b ∧
    firstFree b = some j₂ ∧
    fillEntry b j₂ (.ofNat (c₂ + 1)) (name.append (.lit ".txt")) fileMode = .ok s.rootSlots
  freeBlocks : s.gdt.freeBlocksCount = 4093
  freeInodes : s.gdt.freeInodesCount = 4093
  numbers : (∀ i, (d.vol.inode i).Numbered) → ∀ i, (s.dev.vol.inode i).Numbered

/-- A file with a text was put into slot `j` of the root directory. -/
structure Put (s s' : Fs) (name text : CStr) (j c n : Nat) : Prop where
  inodes : ∃ m, takeBit s.dev.vol.inodeMap ((s.lastAllocInode - 1) / 8).toNat = .ok (m, c) ∧
    s'.dev.vol.inodeMap = m
  blocks : ∃ m, takeBit s.dev.vol.blockMap (s.lastAllocBlock / 8).toNat = .ok (m, n) ∧
    s'.dev.vol.blockMap = m
  slot : firstFree s.rootSlots = some j
  filled : fillEntry s.rootSlots j (.ofNat (c + 1)) name fileMode = .ok s'.rootSlots
  file : HoldsText s'.dev.vol (.ofNat (c + 1)) (.ofNat n) text
  dir : s'.currentDir = s.currentDir
  root : s'.dev.vol.inode s.currentDir = { s.dev.vol.inode s.currentDir with
    size := (s.dev.vol.inode s.currentDir).size + .ofNat dirSize }
  others : ∀ i, i ≠ .ofNat (c + 1) → i ≠ s.currentDir → s'.dev.vol.inode i = s.dev.vol.inode i
  texts : ∀ b, b ≠ .ofNat n → b ≠ (s.dev.vol.inode s.currentDir).blk 0 →
    s'.dev.vol.block b = s.dev.vol.block b
  lastBlock : s'.lastAllocBlock = .ofNat n
  lastInode : s'.lastAllocInode = .ofNat (c + 1)
  freeBlocks : s'.gdt.freeBlocksCount = s.gdt.freeBlocksCount - 1
  freeInodes : s'.gdt.freeInodesCount = s.gdt.freeInodesCount - 1
  numbers : (∀ i, (s.dev.vol.inode i).Numbered) → ∀ i, (s'.dev.vol.inode i).Numbered

section Put

variable {s s₁ s' : Fs} {name text : CStr} {j c n k : Nat} {m m' b b' : Block}

/-- The two calls of `ext2_init` for a file. -/
theorem put_of_made (h : Rooted s k) (hk : k + 1 < dirAmut) (htext : text.length ≤ 512)
    (hfind : firstFree s.rootSlots = some j)
    (htake : takeBit s.dev.vol.inodeMap ((s.lastAllocInode - 1) / 8).toNat = .ok (m, c))
    (hfill : fillEntry s.rootSlots j (.ofNat (c + 1)) name fileMode = .ok b)
    (hmade : FileMade s s₁ fileMode (.ofNat (c + 1)) m b)
    (htake' : takeBit s₁.dev.vol.blockMap (s₁.lastAllocBlock / 8).toNat = .ok (m', n))
    (hget : ∀ p, p < (UInt32.ofNat text.length).toNat → b'.get p = text.get p)
    (hwritten : TextWritten s₁ s' (.ofNat (c + 1)) (.ofNat n) (.ofNat text.length) m' b') :
    Put s s' name text j c n ∧ Rooted s' (k + 1) := by
  obtain ⟨hc, hclear, -⟩ := takeBit_bits (inodeByte_lt h.lastInode) htake
  have hne := h.ne_dir hc hclear
  have hne₁ : UInt32.ofNat (c + 1) ≠ s₁.currentDir := by
    rw [hmade.dir]
    exact hne
  have hrooted₁ := hmade.rooted h hk htake
  obtain ⟨hn, hclear', -⟩ := takeBit_bits (blockByte_lt hrooted₁.lastBlock) htake'
  refine ⟨?_, hwritten.rooted hrooted₁ hne₁ htake'⟩
  exact {
    inodes := ⟨m, htake, by rw [hwritten.vol, hmade.vol]⟩
    blocks := by
      refine ⟨m', ?_, by rw [hwritten.vol]⟩
      rw [hmade.vol, hmade.lastBlock] at htake'
      exact htake'
    slot := hfind
    filled := by
      rw [hwritten.rootSlots hrooted₁ hne₁ hn hclear', hmade.rootSlots hne]
      exact hfill
    file := {
      mode := by
        rw [hwritten.inode_self, hmade.inode_self]
        rfl
      blocks := by rw [hwritten.inode_self]
      size := by rw [hwritten.inode_self]
      blk := by
        rw [hwritten.inode_self]
        simp [Inode.setBlk, Inode.blk]
      text := fun p hp => by
        rw [hwritten.block_self]
        exact hget p (by rwa [UInt32.toNat_ofNat', Nat.mod_eq_of_lt (by omega)]) }
    dir := hwritten.dir.trans hmade.dir
    root := by
      have hdir := hwritten.inode_dir hne₁
      rw [hwritten.dir, hmade.inode_dir hne, hmade.dir] at hdir
      exact hdir
    others := fun i hi hd => (hwritten.inode_of_ne hi).trans (hmade.inode_of_ne hi hd)
    texts := fun i hi hd => (hwritten.block_of_ne hi).trans (hmade.block_of_ne hd)
    lastBlock := hwritten.lastBlock
    lastInode := hwritten.lastInode.trans hmade.lastInode
    freeBlocks := by rw [hwritten.freeBlocks, hmade.freeBlocks]
    freeInodes := by rw [hwritten.freeInodes, hmade.freeInodes]
    numbers := fun hall => hwritten.numbered (isBlock_ofNat hn) (hmade.numbered hall) }

theorem hasModes : has fileMode typeDir = false ∧ has fileMode typeFile = true ∧
    has fileMode wrAble = true := by decide

theorem toNat_length (h : text.length ≤ 512) : (UInt32.ofNat text.length).toNat = text.length := by
  rw [UInt32.toNat_ofNat']
  omega

theorem put_ok (name text : CStr) (j c n : Nat) (m m' : Block) (h : Rooted s k)
    (hk : k + 1 < dirAmut) (hlen : name.length < 20)
    (hpos : 0 < text.length) (htext : text.length ≤ 512) (hfreeb : s.gdt.freeBlocksCount ≠ 0)
    (hfreei : s.gdt.freeInodesCount ≠ 0) (hfind : firstFree s.rootSlots = some j)
    (htake : takeBit s.dev.vol.inodeMap ((s.lastAllocInode - 1) / 8).toNat = .ok (m, c))
    (htake' : takeBit s.dev.vol.blockMap (s.lastAllocBlock / 8).toNat = .ok (m', n)) :
    ∃ s₁ ret s', create s s.currentDir name fileMode = .ok (.ofNat (c + 1), s₁) ∧
      write s₁ (.ofNat (c + 1)) 0 text.get (.ofNat text.length) = .ok (ret, s') ∧
      Put s s' name text j c n ∧ Rooted s' (k + 1) := by
  obtain ⟨hdir, hfile, hwr⟩ := hasModes
  obtain ⟨hc, -, -⟩ := takeBit_bits (inodeByte_lt h.lastInode) htake
  obtain ⟨s₁, b, hcreate, hfill, hmade⟩ := h.create_ok hfreei hdir hfile hlen hfind htake
  have hrooted₁ := hmade.rooted h hk htake
  have htake₁ : takeBit s₁.dev.vol.blockMap (s₁.lastAllocBlock / 8).toNat = .ok (m', n) := by
    rw [hmade.vol, hmade.lastBlock]
    exact htake'
  obtain ⟨s', b', hwrite, hget, hwritten⟩ := write_text_ok text.get hrooted₁.room (isInode_ofNat hc)
    (by rw [hmade.inode_self]; exact hwr) (by rw [hmade.inode_self]) (by rwa [toNat_length htext])
    (by rwa [toNat_length htext]) (by rwa [hmade.freeBlocks]) hrooted₁.lastBlock htake₁
  exact ⟨s₁, _, s', hcreate, hwrite,
    put_of_made h hk htext hfind htake hfill hmade htake₁ hget hwritten⟩

theorem of_put {idx : UInt32} {ret : Nat} (h : Rooted s k) (hk : k + 1 < dirAmut)
    (hlen : name.length < 20) (hpos : 0 < text.length) (htext : text.length ≤ 512)
    (hfreeb : s.gdt.freeBlocksCount ≠ 0) (hfreei : s.gdt.freeInodesCount ≠ 0)
    (hcreate : create s s.currentDir name fileMode = .ok (idx, s₁))
    (hwrite : write s₁ idx 0 text.get (.ofNat text.length) = .ok (ret, s')) :
    ∃ j c n, Put s s' name text j c n ∧ Rooted s' (k + 1) := by
  obtain ⟨hdir, hfile, hwr⟩ := hasModes
  obtain ⟨j, m, c, b, hfind, htake, rfl, hfill, hmade⟩ := h.of_create hfreei hdir hfile hlen hcreate
  obtain ⟨hc, -, -⟩ := takeBit_bits (inodeByte_lt h.lastInode) htake
  have hrooted₁ := hmade.rooted h hk htake
  obtain ⟨m', n, b', htake', hget, hwritten⟩ := of_write_text hrooted₁.room (isInode_ofNat hc)
    (by rw [hmade.inode_self]; exact hwr) (by rw [hmade.inode_self]) (by rwa [toNat_length htext])
    (by rwa [toNat_length htext]) (by rwa [hmade.freeBlocks]) hrooted₁.lastBlock hwrite
  exact ⟨j, c, n, put_of_made h hk htext hfind htake hfill hmade htake' hget hwritten⟩

end Put

theorem toNat_blockByte {k : Nat} (hk : k < 8 * 512) : (UInt32.ofNat k / 8).toNat = k / 8 := by
  have hnat := toNat_ofNat_of_lt (a := k) (by omega)
  have hdiv : (UInt32.ofNat k / 8).toNat = (UInt32.ofNat k).toNat / 8 := by simp
  rw [hdiv, hnat]

theorem toNat_inodeByte {k : Nat} (hk : k < 8 * 512) :
    ((UInt32.ofNat (k + 1) - 1) / 8).toNat = k / 8 := by
  have hnat := toNat_ofNat_of_lt (a := k + 1) (by omega)
  have hsub := toNat_pred_inode (isInode_ofNat hk)
  have hdiv : ((UInt32.ofNat (k + 1) - 1) / 8).toNat = (UInt32.ofNat (k + 1) - 1).toNat / 8 := by
    simp
  rw [hdiv, hsub, hnat, Nat.add_sub_cancel]

theorem of_helloStr : 0 < helloStr.length ∧ helloStr.length ≤ 512 ∧
    0 < labelStr.length ∧ labelStr.length ≤ 512 := by decide

theorem ofNat_inj {a b : Nat} (ha : a < 8 * 512 + 1) (hb : b < 8 * 512 + 1)
    (h : UInt32.ofNat a = UInt32.ofNat b) : a = b := by
  rw [← toNat_ofNat_of_lt ha, ← toNat_ofNat_of_lt hb, h]

section Made

variable {d : Device} {name : CStr} {s s₁ s₂ : Fs} {mb mi : Block} {b₀ b₁ b₂ c₀ c₁ c₂ j₁ j₂ : Nat}

theorem made_of_puts (h : RootMade d s₁ mb mi (.ofNat b₀) (.ofNat (c₀ + 1)))
    (hb : takeBit d.vol.blockMap 0 = .ok (mb, b₀)) (hc : takeBit d.vol.inodeMap 0 = .ok (mi, c₀))
    (hhello : Put s₁ s₂ (.lit "hello.cpp") helloStr j₁ c₁ b₁)
    (hlabel : Put s₂ s (name.append (.lit ".txt")) labelStr j₂ c₂ b₂) (hs : Rooted s 4) :
    Made d name s b₀ b₁ b₂ c₀ c₁ c₂ j₁ j₂ := by
  obtain ⟨hb₀, -, -⟩ := takeBit_bits (by decide) hb
  obtain ⟨hc₀, -, -⟩ := takeBit_bits (by decide) hc
  obtain ⟨mi₁, htakei₁, hmi₁⟩ := hhello.inodes
  obtain ⟨mi₂, htakei₂, hmi₂⟩ := hlabel.inodes
  obtain ⟨mb₁, htakeb₁, hmb₁⟩ := hhello.blocks
  obtain ⟨mb₂, htakeb₂, hmb₂⟩ := hlabel.blocks
  rw [h.lastInode, toNat_inodeByte hc₀, h.vol] at htakei₁
  rw [h.lastBlock, toNat_blockByte hb₀, h.vol] at htakeb₁
  obtain ⟨hc₁, -, -⟩ := takeBit_bits (by unfold blkSize; omega) htakei₁
  obtain ⟨hb₁, -, -⟩ := takeBit_bits (by unfold blkSize; omega) htakeb₁
  rw [hhello.lastInode, toNat_inodeByte hc₁, hmi₁] at htakei₂
  rw [hhello.lastBlock, toNat_blockByte hb₁, hmb₁] at htakeb₂
  have hblocks : Takes d.vol.blockMap 0 [b₀, b₁, b₂] s.dev.vol.blockMap := by
    rw [hmb₂]
    exact .cons hb (.cons htakeb₁ (.cons htakeb₂ (.nil ..)))
  have hinodes : Takes d.vol.inodeMap 0 [c₀, c₁, c₂] s.dev.vol.inodeMap := by
    rw [hmi₂]
    exact .cons hc (.cons htakei₁ (.cons htakei₂ (.nil ..)))
  obtain ⟨hnodupb, hltb, -, -⟩ := hblocks.spec (by decide)
  obtain ⟨hnodupi, hlti, -, -⟩ := hinodes.spec (by decide)
  have hneb : ∀ a b, a ∈ [b₀, b₁, b₂] → b ∈ [b₀, b₁, b₂] → a ≠ b → UInt32.ofNat a ≠ .ofNat b :=
    fun a b ha hb hne he => hne (ofNat_inj (by have := (hltb a ha).1; omega)
      (by have := (hltb b hb).1; omega) he)
  have hnei : ∀ a b, a ∈ [c₀, c₁, c₂] → b ∈ [c₀, c₁, c₂] → a ≠ b →
      UInt32.ofNat (a + 1) ≠ .ofNat (b + 1) := fun a b ha hb hne he =>
    hne (Nat.succ.inj (ofNat_inj (by have := (hlti a ha).1; omega)
      (by have := (hlti b hb).1; omega) he))
  -- the inode of the root directory, but for the size
  have hdir₁ := h.dir
  have hdir₂ : s₂.currentDir = .ofNat (c₀ + 1) := hhello.dir.trans hdir₁
  have hdir : s.currentDir = .ofNat (c₀ + 1) := hlabel.dir.trans hdir₂
  have hroot₁ : s₁.dev.vol.inode (.ofNat (c₀ + 1)) = rootInode (d.vol.inode 1) (.ofNat b₀) := by
    rw [h.vol]
    exact Function.update_self ..
  have hroot₂ := hhello.root
  rw [hdir₁, hroot₁] at hroot₂
  have hroot := hlabel.root
  rw [hdir₂, hroot₂] at hroot
  have hblk₂ : (s₂.dev.vol.inode s₂.currentDir).blk 0 = .ofNat b₀ := by
    rw [hdir₂, hroot₂]
    exact rootInode_blk (x := d.vol.inode 1)
  simp only [List.nodup_cons, List.mem_cons, List.not_mem_nil, or_false, not_or, List.nodup_nil,
    not_false_eq_true, and_true] at hnodupb hnodupi
  exact {
    rooted := hs
    blocks := hblocks
    inodes := hinodes
    dir := hdir
    root := by
      rw [hdir, hroot]
      exact rootInode_blk (x := d.vol.inode 1)
    rootMode := by
      rw [hdir, hroot]
      rfl
    hello := by
      refine hhello.file.of_eq (hlabel.others _ (hnei _ _ (by simp) (by simp) hnodupi.2) ?_)
        (hlabel.texts _ (hneb _ _ (by simp) (by simp) hnodupb.2) ?_)
      · rw [hdir₂]
        exact hnei _ _ (by simp) (by simp) (Ne.symm hnodupi.1.1)
      · rw [hblk₂]
        exact hneb _ _ (by simp) (by simp) (Ne.symm hnodupb.1.1)
    label := hlabel.file
    slots := by
      have hslots := h.rootSlots
      refine ⟨s₂.rootSlots, ?_, ?_, hlabel.slot, hlabel.filled⟩
      · rw [← hslots]
        exact hhello.slot
      · rw [← hslots]
        exact hhello.filled
    freeBlocks := by
      rw [hlabel.freeBlocks, hhello.freeBlocks, h.freeBlocks]
      decide
    freeInodes := by
      rw [hlabel.freeInodes, hhello.freeInodes, h.freeInodes]
      decide
    numbers := fun hall => hlabel.numbers (hhello.numbers (h.numbered (isBlock_ofNat hb₀) hall)) }

theorem length_append (name : CStr) : (name.append (.lit ".txt")).length = name.length + 4 := by
  show (name.bytes ++ _).length = _
  rw [List.length_append]
  rfl

theorem of_init (h : d.Room) (hname : name.length < 16) (hrun : init d name = .ok s) :
    ∃ b₀ b₁ b₂ c₀ c₁ c₂ j₁ j₂, Made d name s b₀ b₁ b₂ c₀ c₁ c₂ j₁ j₂ := by
  obtain ⟨hpos, hhello, hpos', hlabel⟩ := of_helloStr
  obtain ⟨s₁, hroot, hrun⟩ := bind_eq_ok.mp hrun
  obtain ⟨r, hcreate, hrun⟩ := bind_eq_ok.mp hrun
  obtain ⟨r', hwrite, hrun⟩ := bind_eq_ok.mp hrun
  obtain ⟨_, -, hrun⟩ := bind_eq_ok.mp hrun
  obtain ⟨r'', hcreate', hrun⟩ := bind_eq_ok.mp hrun
  obtain ⟨r₃, hwrite', hrun⟩ := bind_eq_ok.mp hrun
  cases hrun
  obtain ⟨mb, mi, b₀, c₀, hb, hc, hmade⟩ := of_initRoot h hroot
  have hrooted := hmade.rooted hb hc
  obtain ⟨j₁, c₁, b₁, hput, hrooted₂⟩ := of_put hrooted (by decide) (by decide) hpos hhello
    (by rw [hmade.freeBlocks]; decide) (by rw [hmade.freeInodes]; decide) hcreate hwrite
  obtain ⟨j₂, c₂, b₂, hput', hrooted₃⟩ := of_put hrooted₂ (by decide)
    (by rw [length_append]; omega) hpos' hlabel
    (by rw [hput.freeBlocks, hmade.freeBlocks]; decide)
    (by rw [hput.freeInodes, hmade.freeInodes]; decide) hcreate' hwrite'
  exact ⟨b₀, b₁, b₂, c₀, c₁, c₂, j₁, j₂, made_of_puts hmade hb hc hput hput' hrooted₃⟩

/-! ## A clean device -/

theorem firstFree_eq {b : Block} {j : Nat} (hj : j < dirAmut) (hzero : dirInode b j = 0)
    (hne : ∀ i, i < j → dirInode b i ≠ 0) : firstFree b = some j := by
  rw [firstFree, List.find?_range_eq_some]
  exact ⟨decide_eq_true hzero, List.mem_range.mpr hj, fun i hi => by simpa using hne i hi⟩

/-- The directory before and after the first file. -/
theorem Device.Clean.slots_free (hd : d.Clean) {c : UInt32} (hc : c ≠ 0) :
    firstFree (rootBlock (d.vol.block 0) c) = some 2 :=
  firstFree_eq (by decide) ((rootBlock_free le_rfl).trans (hd.slots 2 le_rfl (by decide)))
    fun i hi => by rwa [dirInode_rootBlock _ _ hi]

theorem Device.Clean.filled (hd : d.Clean) {c idx : UInt32} {b : Block} (hc : c ≠ 0)
    (hidx : idx ≠ 0)
    (hlen : name.length < 20)
    (hfill : fillEntry (rootBlock (d.vol.block 0) c) 2 idx name fileMode = .ok b) :
    firstFree b = some 3 := by
  obtain ⟨b', hfill', hsame, hinode, -⟩ :=
    fillEntry_ok (rootBlock (d.vol.block 0) c) (j := 2) (by decide) idx fileMode hlen
  rw [hfill] at hfill'
  cases hfill'
  refine firstFree_eq (by decide) ?_ fun i hi => ?_
  · rw [hsame.dirInode (by decide), rootBlock_free (by decide)]
    exact hd.slots 3 (by decide) (by decide)
  · by_cases h2 : i = 2
    · rwa [h2, hinode]
    · rwa [hsame.dirInode h2, dirInode_rootBlock _ _ (by omega)]

theorem init_ok (h : d.Room) (hd : d.Clean) (hname : name.length < 16) :
    ∃ s, init d name = .ok s := by
  have hcard : ∀ {m : Block}, m = .zero → m.used.card + 3 ≤ 8 * 512 := by
    rintro m rfl
    rw [used_zero]
    decide
  obtain ⟨bs, B, hbs, htakesb⟩ :=
    Takes.exists_of_card (hcard hd.blockMap) (show 0 < blkSize by decide)
  obtain ⟨cs, C, hcs, htakesi⟩ :=
    Takes.exists_of_card (hcard hd.inodeMap) (show 0 < blkSize by decide)
  obtain ⟨b₀, b₁, b₂, rfl⟩ := List.length_eq_three.mp hbs
  obtain ⟨c₀, c₁, c₂, rfl⟩ := List.length_eq_three.mp hcs
  obtain ⟨-, hltb, -⟩ := htakesb.spec (by decide)
  obtain ⟨-, hlti, -⟩ := htakesi.spec (by decide)
  have hb₀ := (hltb b₀ (by simp)).1
  have hb₁ := (hltb b₁ (by simp)).1
  have hc₀ := (hlti c₀ (by simp)).1
  have hc₁ := (hlti c₁ (by simp)).1
  cases htakesb with
  | @cons _ mb _ _ _ _ hb htakesb =>
  cases htakesb with
  | @cons _ mb₁ _ _ _ _ hb' htakesb =>
  cases htakesb with
  | @cons _ mb₂ _ _ _ _ hb'' _ =>
  cases htakesi with
  | @cons _ mi _ _ _ _ hc htakesi =>
  cases htakesi with
  | @cons _ mi₁ _ _ _ _ hc' htakesi =>
  cases htakesi with
  | @cons _ mi₂ _ _ _ _ hc'' _ =>
  obtain ⟨hpos, hhello, hpos', hlabel⟩ := of_helloStr
  obtain ⟨s₁, hroot, hmade⟩ := initRoot_ok h hb hc
  have hrooted := hmade.rooted hb hc
  have hzero : UInt32.ofNat (c₀ + 1) ≠ 0 := (isInode_ofNat hc₀).ne_zero
  have hslots : s₁.rootSlots = rootBlock (d.vol.block 0) (.ofNat (c₀ + 1)) := hmade.rootSlots
  obtain ⟨s₂, ret, s₃, hcreate, hwrite, hput, hrooted₂⟩ := put_ok (.lit "hello.cpp") helloStr 2
    c₁ b₁ mi₁ mb₁ hrooted (by decide)
    (by decide) hpos hhello (by rw [hmade.freeBlocks]; decide) (by rw [hmade.freeInodes]; decide)
    (by rw [hslots]; exact hd.slots_free hzero)
    (by rw [hmade.lastInode, toNat_inodeByte hc₀, hmade.vol]; exact hc')
    (by rw [hmade.lastBlock, toNat_blockByte hb₀, hmade.vol]; exact hb')
  have hfilled := hput.filled
  rw [hslots] at hfilled
  obtain ⟨_, htake, rfl⟩ := hput.inodes
  obtain ⟨_, htake', rfl⟩ := hput.blocks
  rw [hmade.lastInode, toNat_inodeByte hc₀, hmade.vol] at htake
  rw [hmade.lastBlock, toNat_blockByte hb₀, hmade.vol] at htake'
  have hmap := hc'.symm.trans htake
  have hmap' := hb'.symm.trans htake'
  cases hmap
  cases hmap'
  obtain ⟨s₄, ret', s₅, hcreate', hwrite', -, -⟩ := put_ok (name.append (.lit ".txt")) labelStr 3
    c₂ b₂ mi₂ mb₂ hrooted₂ (by decide)
    (by rw [length_append]; omega) hpos' hlabel
    (by rw [hput.freeBlocks, hmade.freeBlocks]; decide)
    (by rw [hput.freeInodes, hmade.freeInodes]; decide)
    (hd.filled hzero (isInode_ofNat hc₁).ne_zero (by decide) hfilled)
    (by rw [hput.lastInode, toNat_inodeByte hc₁]; exact hc'')
    (by rw [hput.lastBlock, toNat_blockByte hb₁]; exact hb'')
  refine ⟨s₅,
    bind_eq_ok.mpr ⟨s₁, hroot, bind_eq_ok.mpr ⟨_, hcreate, bind_eq_ok.mpr ⟨_, hwrite, ?_⟩⟩⟩⟩
  refine bind_eq_ok.mpr ⟨(), inBounds_pos (by omega), ?_⟩
  exact bind_eq_ok.mpr ⟨_, hcreate', bind_eq_ok.mpr ⟨_, hwrite', rfl⟩⟩

end Made

end OsWorkbench.Ext2
