import OsWorkbench.Ext2.Consistent

/-!
# Creating a file or a directory

`ext2_create` puts the name into the first free slot of the directory, or into a new
block, with `strcpy` into `name[16]`. A name of up to 19 bytes ends inside of the entry,
in `par[4]` at the latest; a longer one goes on in the entry behind it.
-/

namespace OsWorkbench.Ext2

/-! ## What a call is for -/

/-- Every slot of the directory is taken. -/
def Vol.Full (v : Vol) (i : UInt32) : Prop :=
  (entries v (v.inode i)).length = dirAmut * (v.inode i).blocks.toNat

instance (v : Vol) (i : UInt32) : Decidable (v.Full i) := inferInstanceAs (Decidable (_ = _))

/-- There is a directory that can take an entry more, a free inode, and as many free blocks
as it takes: one for a full directory and one for a new one. -/
structure Creatable (s : Fs) (ridx mode : UInt32) : Prop where
  live : s.dev.vol.Live ridx
  dir : has (s.dev.vol.inode ridx).mode typeDir = true
  few : (entries s.dev.vol (s.dev.vol.inode ridx)).length < 4096 / dirSize
  inode : s.gdt.freeInodesCount ≠ 0
  blocks : (if s.dev.vol.Full ridx then 1 else 0) + (if has mode typeDir then 1 else 0) ≤
    s.gdt.freeBlocksCount.toNat
  mode : has mode typeDir = true ∨ has mode typeFile = true

instance (s : Fs) (ridx mode : UInt32) : Decidable (Creatable s ridx mode) :=
  decidable_of_iff
    (s.dev.vol.Live ridx ∧ has (s.dev.vol.inode ridx).mode typeDir = true ∧
      (entries s.dev.vol (s.dev.vol.inode ridx)).length < 4096 / dirSize ∧
      s.gdt.freeInodesCount ≠ 0 ∧
      (if s.dev.vol.Full ridx then 1 else 0) + (if has mode typeDir then 1 else 0) ≤
        s.gdt.freeBlocksCount.toNat ∧
      (has mode typeDir = true ∨ has mode typeFile = true))
    ⟨fun ⟨hlive, hdir, hfew, hinode, hblocks, hmode⟩ =>
      ⟨hlive, hdir, hfew, hinode, hblocks, hmode⟩,
      fun h => ⟨h.live, h.dir, h.few, h.inode, h.blocks, h.mode⟩⟩

/-- What `ext2_create` stores in slot `j` of its buffer `old`, which becomes `new`: the other
entries of a new block are cleared, and nothing else happens outside of the slot, whatever the
buffer has there. -/
structure Stores (old new : Block) (j : Nat) (idx : UInt32) (name : CStr) (mode : UInt32) :
    Prop where
  listed : slot new j = some ⟨name, idx, mode⟩
  fills : ∃ dir, fillEntry old j idx name mode = .ok dir ∧
    (new = dir ∨ j = 0 ∧ new = clearFrom dir 1)
  inside : ∀ buf : Block,
    (∀ p, dirSize * j ≤ p → p < dirSize * (j + 1) → buf.get p = old.get p) →
      ∃ dir, fillEntry buf j idx name mode = .ok dir ∧ SameElse buf dir j

/-- What `ext2_create` is for. -/
structure AddsEntry (s s' : Fs) (ridx idx : UInt32) (name : CStr) (mode : UInt32) : Prop where
  fresh : IsInode idx ∧ ¬s.dev.vol.Live idx
  listed : ∃ es es', Lists s ridx es ∧ Lists s' ridx es' ∧ Inserted es es' ⟨name, idx, mode⟩
  size : (s'.dev.vol.inode ridx).size = (s.dev.vol.inode ridx).size + .ofNat dirSize
  newDir : has mode typeDir = true →
    Lists s' idx [⟨.lit ".", idx, typeDir⟩, ⟨.lit "..", ridx, typeDir⟩]
  newFile : has mode typeDir = false →
    (s'.dev.vol.inode idx).size = 0 ∧ (s'.dev.vol.inode idx).blocks = 0
  others : ∀ i, s.dev.vol.Live i → i ≠ ridx → s'.dev.vol.inode i = s.dev.vol.inode i ∧
    ∀ k, k < (s.dev.vol.inode i).blocks.toNat →
      s'.dev.vol.block ((s.dev.vol.inode i).blk k) = s.dev.vol.block ((s.dev.vol.inode i).blk k)
  stored : ∃ k j, k < (s'.dev.vol.inode ridx).blocks.toNat ∧ j < dirAmut ∧
    Stores (s.dev.vol.block ((s'.dev.vol.inode ridx).blk k))
      (s'.dev.vol.block ((s'.dev.vol.inode ridx).blk k)) j idx name mode

/-- `ext2_create` adds one entry and nothing else. -/
def Adds (s : Fs) (ridx : UInt32) (name : CStr) (mode : UInt32) : Prop :=
  ∃ idx s', create s ridx name mode = .ok (idx, s') ∧ AddsEntry s s' ridx idx name mode

/-! ## The name and its slot -/

section Stores

variable {old new : Block} {j : Nat} {idx mode : UInt32} {name : CStr}

/-- A name of at most 19 bytes is stored inside, whatever the buffer has. -/
theorem Stores.of_lt {dir : Block} (hlen : name.length < 20) (hj : j < dirAmut)
    (hlisted : slot new j = some ⟨name, idx, mode⟩)
    (hfill : fillEntry old j idx name mode = .ok dir)
    (hnew : new = dir ∨ j = 0 ∧ new = clearFrom dir 1) : Stores old new j idx name mode where
  listed := hlisted
  fills := ⟨dir, hfill, hnew⟩
  inside buf _ := by
    obtain ⟨dir, hfill, hsame, -⟩ := fillEntry_ok buf hj idx mode hlen
    exact ⟨dir, hfill, hsame⟩

/-- A longer name reaches the entry behind the slot, or leaves the block. -/
theorem Stores.length_lt (h : Stores old new j idx name mode) : name.length < 20 := by
  by_contra hlen
  obtain ⟨dir, hfill, hsame⟩ := h.inside (old.set (dirSize * (j + 1)) (name.get 20 + 1))
    fun p _ hp => Bytes.get_set_ne _ _ hp.ne
  obtain ⟨_, hbound, hput⟩ := bind_eq_ok.mp hfill
  have hbound := inBounds_eq_ok.mp hbound
  cases hput
  have hbehind : dirSize * (j + 1) = dirSize * j + 12 + 20 := by
    unfold dirSize
    omega
  have hj : dirSize * j + 12 + 20 < 512 := by
    unfold blkSize at hbound
    omega
  have hbyte := hsame (dirSize * (j + 1)) (.inr le_rfl)
  rw [Bytes.get_set_self _ _ (hbehind ▸ hj), hbehind, Bytes.get_putStr _ _ (by omega) hj] at hbyte
  have hne : ∀ x : UInt8, x ≠ x + 1 := by
    intro x hx
    have := congrArg UInt8.toNat hx
    rw [UInt8.toNat_add] at this
    have hlt := x.toNat_lt
    have h1 : (1 : UInt8).toNat = 1 := rfl
    omega
  exact hne _ hbyte

end Stores

/-! ## Finding a free slot -/

section Find

variable {s : Fs}

theorem findFree_spec (h : s.dev.Room) {n i : Nat}
    (hx : ∀ k, i ≤ k → k < i + n → k < ext2NBlocks ∧ IsBlock (s.ind.blk k))
    (hfree : ∃ k j, i ≤ k ∧ k < i + n ∧ j < dirAmut ∧
      dirInode (s.dev.vol.block (s.ind.blk k)) j = 0) :
    ∃ k j, findFree n i s = .ok ((k, j), { s with dir := s.dev.vol.block (s.ind.blk k) }) ∧
      i ≤ k ∧ k < i + n ∧ j < dirAmut ∧ dirInode (s.dev.vol.block (s.ind.blk k)) j = 0 := by
  induction n generalizing i s with
  | zero =>
    obtain ⟨k, j, hik, hk, -⟩ := hfree
    omega
  | succ n ih =>
    obtain ⟨hi, hb⟩ := hx i le_rfl (by omega)
    rw [findFree, inBounds_bind hi, rdDir_ok h hb, ok_bind]
    cases hfind : (List.range dirAmut).find? fun j =>
        decide (dirInode (s.dev.vol.block (s.ind.blk i)) j = 0) with
    | some j =>
      have hj := List.mem_range.mp (List.mem_of_find?_eq_some hfind)
      have hzero := List.find?_some hfind
      exact ⟨i, j, rfl, le_rfl, by omega, hj, by simpa using hzero⟩
    | none =>
      have hnone := List.find?_eq_none.mp hfind
      obtain ⟨k, j, hik, hk, hj, hzero⟩ := hfree
      have hne : k ≠ i := by
        rintro rfl
        exact hnone j (List.mem_range.mpr hj) (by simpa using hzero)
      obtain ⟨k', j', hf, hik', hk', hj', hzero'⟩ :=
        ih (s := { s with dir := s.dev.vol.block (s.ind.blk i) }) h (i := i + 1)
          (fun k hk hk' => hx k (by omega) (by omega)) ⟨k, j, by omega, by omega, hj, hzero⟩
      exact ⟨k', j', hf, by omega, by omega, hj', hzero'⟩

/-- A block without a free slot has 16 entries. -/
theorem length_blockEntries {b : Block} (h : ∀ j, j < dirAmut → dirInode b j ≠ 0) :
    (blockEntries b).length = dirAmut := by
  have hmap : blockEntries b = (List.range dirAmut).map fun j =>
      ⟨dirName b j, dirInode b j, dirMode b j⟩ := by
    rw [blockEntries, ← List.filterMap_eq_map]
    exact List.filterMap_congr fun j hj => slot_of_ne (h j (List.mem_range.mp hj))
  rw [hmap, List.length_map, List.length_range]

/-- A directory that is not full has a free slot. -/
theorem exists_free {v : Vol} {x : Inode} (h : (entries v x).length ≠ dirAmut * x.blocks.toNat) :
    ∃ k j, k < x.blocks.toNat ∧ j < dirAmut ∧ dirInode (v.block (x.blk k)) j = 0 := by
  by_contra hall
  push Not at hall
  have hlen : ∀ k ∈ List.range x.blocks.toNat,
      (blockEntries (v.block (x.blk k))).length = dirAmut := fun k hk =>
    length_blockEntries fun j hj => hall k j (List.mem_range.mp hk) hj
  apply h
  rw [entries, List.length_flatMap, List.map_congr_left hlen, List.map_const', List.sum_replicate,
    List.length_range, smul_eq_mul, Nat.mul_comm]

end Find

/-! ## Entering the name -/

/-- The directory with the inode `s.ind` got an entry for the new inode `idx`; it is `s'.ind`
now, but for its size. -/
structure Entered (s s' : Fs) (idx : UInt32) (name : CStr) (mode : UInt32) : Prop where
  room : s'.dev.Room
  isInode : IsInode idx
  clear : s.dev.vol.inodeMap.bit (idx.toNat - 1) = false
  inode : s'.dev.vol.inode = s.dev.vol.inode
  lastBlock : IsBlock s'.lastAllocBlock
  counts : Counts s'.gdt.freeBlocksCount s'.dev.vol.blockMap
  hasBlocks : HasBlocks s'.ind
  size : s'.ind.size = s.ind.size
  dirMode : s'.ind.mode = s.ind.mode
  marked : ∀ k, k < s'.ind.blocks.toNat → s'.dev.vol.blockMap.bit (s'.ind.blk k).toNat = true
  own : ∀ k k', k < s'.ind.blocks.toNat → k' < s'.ind.blocks.toNat →
    s'.ind.blk k = s'.ind.blk k' → k = k'
  same : ∀ k, k < s.ind.blocks.toNat → s'.ind.blk k = s.ind.blk k
  old : ∀ k, k < s'.ind.blocks.toNat → (k < s.ind.blocks.toNat ∧ s'.ind.blk k = s.ind.blk k) ∨
    s.dev.vol.blockMap.bit (s'.ind.blk k).toNat = false
  kept : ∀ l, s.dev.vol.blockMap.bit l = true → s'.dev.vol.blockMap.bit l = true
  taken : ∀ l, s'.dev.vol.blockMap.bit l = true → s.dev.vol.blockMap.bit l = true ∨
    ∃ k, k < s'.ind.blocks.toNat ∧ (s'.ind.blk k).toNat = l
  frame : ∀ b, s.dev.vol.blockMap.bit b.toNat = true →
    (∀ k, k < s.ind.blocks.toNat → s.ind.blk k ≠ b) → s'.dev.vol.block b = s.dev.vol.block b
  numbers : s.ind.Numbered → s'.ind.Numbered
  inodeMap : ∀ l, s'.dev.vol.inodeMap.bit l =
    (s.dev.vol.inodeMap.bit l || decide (l = idx.toNat - 1))
  freeInodes : Counts s'.gdt.freeInodesCount s'.dev.vol.inodeMap
  lastInode : IsInode s'.lastAllocInode
  root : s'.currentDir = s.currentDir
  listed : Inserted (entries s.dev.vol s.ind) (entries s'.dev.vol s'.ind) ⟨name, idx, mode⟩
  names : ∀ k, k < s'.ind.blocks.toNat → Terminated (s'.dev.vol.block (s'.ind.blk k))
  stored : ∃ k j, k < s'.ind.blocks.toNat ∧ j < dirAmut ∧
    Stores (s.dev.vol.block (s'.ind.blk k)) (s'.dev.vol.block (s'.ind.blk k)) j idx name mode

/-- The inode of a directory is loaded, and there is a free inode. -/
structure Loaded (s : Fs) : Prop where
  room : s.dev.Room
  hasBlocks : HasBlocks s.ind
  marked : ∀ k, k < s.ind.blocks.toNat → s.dev.vol.blockMap.bit (s.ind.blk k).toNat = true
  own : ∀ k k', k < s.ind.blocks.toNat → k' < s.ind.blocks.toNat → s.ind.blk k = s.ind.blk k' →
    k = k'
  names : ∀ k, k < s.ind.blocks.toNat → Terminated (s.dev.vol.block (s.ind.blk k))
  lastBlock : IsBlock s.lastAllocBlock
  lastInode : IsInode s.lastAllocInode
  freeBlocks : Counts s.gdt.freeBlocksCount s.dev.vol.blockMap
  freeInodes : Counts s.gdt.freeInodesCount s.dev.vol.inodeMap
  inode : s.gdt.freeInodesCount ≠ 0

section Enter

variable {s : Fs} {name : CStr}

theorem Loaded.enterFree (h : Loaded s) (mode : UInt32) (hlen : name.length < 20)
    (hfull : (entries s.dev.vol s.ind).length ≠ dirAmut * s.ind.blocks.toNat) :
    ∃ idx s', enterFree s name mode = .ok (idx, s') ∧ Entered s s' idx name mode ∧
      s'.ind.blocks.toNat = s.ind.blocks.toNat ∧
      s'.gdt.freeBlocksCount = s.gdt.freeBlocksCount := by
  obtain ⟨k₀, j₀, hk₀, hj₀, hzero₀⟩ := exists_free hfull
  obtain ⟨k, j, hfind, -, hk, hj, hzero⟩ := findFree_spec h.room (n := s.ind.blocks.toNat) (i := 0)
    (fun k _ hk => ⟨(by omega : k < s.ind.blocks.toNat).trans_le h.hasBlocks.le,
      h.hasBlocks.isBlock k (by omega)⟩)
    ⟨k₀, j₀, Nat.zero_le _, by omega, hj₀, hzero₀⟩
  rw [Nat.zero_add] at hk
  have hb := h.hasBlocks.isBlock k hk
  obtain ⟨idx, m, halloc, hidx, hclear, hm⟩ :=
    allocInode_ok (s := { s with dir := s.dev.vol.block (s.ind.blk k) }) h.room.maps h.inode
      h.lastInode (h.freeInodes.exists_clear h.inode)
  obtain ⟨b', hfill, hsame, hinode, hmode, hname⟩ :=
    fillEntry_ok (s.dev.vol.block (s.ind.blk k)) hj idx mode hlen
  have hterm := h.names k hk
  have hslot : slot b' j = some ⟨name, idx, mode⟩ := by
    rw [slot_of_ne (by rw [hinode]; exact hidx.ne_zero), hinode, hmode, hname]
  let s₁ := Fs.tookInode { s with dir := s.dev.vol.block (s.ind.blk k) } idx m
  let s' : Fs := { s₁ with dir := b', dev := s₁.dev.putBlock (s.ind.blk k) b' }
  have hrun : Ext2.enterFree s name mode = .ok (idx, s') := by
    rw [Ext2.enterFree, hfind, ok_bind]
    simp only [halloc, ok_bind, tookInode_dir, tookInode_ind, hfill]
    rw [wrDir_ok _ hb, ok_bind]
    · rfl
    · exact h.room
  have hvol : s'.dev.vol = { s.dev.vol with
      gd := { s.gdt with freeInodesCount := s.gdt.freeInodesCount - 1 }
      inodeMap := m
      block := Function.update s.dev.vol.block (s.ind.blk k) b' } := by
    show (Device.putBlock _ _ _).vol = _
    rw [Device.vol_putBlock hb, vol_tookInode]
    rfl
  have hblock : ∀ c, c ≠ s.ind.blk k → s'.dev.vol.block c = s.dev.vol.block c := fun c hc => by
    rw [hvol]
    exact Function.update_of_ne hc ..
  have hself : s'.dev.vol.block (s.ind.blk k) = b' := by
    rw [hvol]
    exact Function.update_self ..
  have hother : ∀ k', k' < s.ind.blocks.toNat → k' ≠ k →
      s'.dev.vol.block (s.ind.blk k') = s.dev.vol.block (s.ind.blk k') := fun k' hk' hne =>
    hblock _ fun he => hne (h.own k' k hk' hk he)
  refine ⟨idx, s', hrun, ?_, rfl, rfl⟩
  exact {
    room := h.room
    isInode := hidx
    clear := hclear
    inode := by rw [hvol]
    lastBlock := h.lastBlock
    counts := by
      rw [hvol]
      exact h.freeBlocks
    hasBlocks := h.hasBlocks
    size := rfl
    dirMode := rfl
    marked := fun k' hk' => by
      rw [hvol]
      exact h.marked k' hk'
    own := h.own
    same := fun _ _ => rfl
    old := fun k' hk' => .inl ⟨hk', rfl⟩
    kept := fun l hl => by
      rw [hvol]
      exact hl
    taken := fun l hl => by
      rw [hvol] at hl
      exact .inl hl
    frame := fun c _ hne => hblock c (hne k hk).symm
    numbers := fun hall => hall
    inodeMap := fun l => by
      rw [hvol]
      exact hm l
    freeInodes := by
      rw [hvol]
      exact h.freeInodes.take h.inode (by unfold IsInode inodeTableCount at hidx; omega) hclear hm
    lastInode := hidx
    root := rfl
    listed := by
      refine Inserted.flatMap hk ?_ fun k' hk' hne => ?_
      · rw [show s'.ind.blk k = s.ind.blk k from rfl, hself]
        exact hsame.inserted hterm hj hzero hslot
      · rw [show s'.ind.blk k' = s.ind.blk k' from rfl, hother k' hk' hne]
    names := fun k' hk' => by
      show Terminated (s'.dev.vol.block (s.ind.blk k'))
      by_cases hne : k' = k
      · rw [hne, hself]
        exact hsame.terminated hterm (by rw [hname]; unfold dirSize; omega)
      · rw [hother k' hk' hne]
        exact h.names k' hk'
    stored := by
      refine ⟨k, j, hk, hj, ?_⟩
      rw [show s'.ind.blk k = s.ind.blk k from rfl, hself]
      exact .of_lt hlen hj hslot hfill (.inl rfl) }

/-- The inode with one block more. -/
def Inode.grow (x : Inode) (b : UInt32) : Inode :=
  { x.setBlk x.blocks.toNat b with blocks := x.blocks + 1 }

theorem Inode.grow_blocks {x : Inode} (h : x.blocks.toNat < ext2NBlocks) (b : UInt32) :
    (x.grow b).blocks.toNat = x.blocks.toNat + 1 := by
  show (x.blocks + 1).toNat = _
  unfold ext2NBlocks at h
  rw [UInt32.toNat_add, show (1 : UInt32).toNat = 1 from rfl]
  omega

theorem Inode.grow_blk_self {x : Inode} (h : x.blocks.toNat < ext2NBlocks) (b : UInt32) :
    (x.grow b).blk x.blocks.toNat = b := by
  unfold ext2NBlocks at h
  simp [Inode.grow, Inode.setBlk, Inode.blk, h]

theorem Inode.grow_blk {x : Inode} {b : UInt32} {k : Nat} (h : k ≠ x.blocks.toNat) :
    (x.grow b).blk k = x.blk k := by
  simp [Inode.grow, Inode.setBlk, Inode.blk, h]

/-- A block that is given out is none of those marked. -/
theorem ne_of_marked {m : Block} {b c : UInt32} (hc : m.bit c.toNat = true)
    (hb : m.bit b.toNat = false) : c ≠ b := by
  rintro rfl
  rw [hb] at hc
  cases hc

theorem Loaded.enterNew (h : Loaded s) (mode : UInt32) (hlen : name.length < 20)
    (hblocks : s.ind.blocks.toNat < ext2NBlocks) (hfree : s.gdt.freeBlocksCount ≠ 0) :
    ∃ idx s', enterNew s name mode = .ok (idx, s') ∧ Entered s s' idx name mode ∧
      s'.ind.blocks.toNat = s.ind.blocks.toNat + 1 ∧
      s'.gdt.freeBlocksCount = s.gdt.freeBlocksCount - 1 := by
  obtain ⟨b, mb, hallocb, hb, hclearb, hmb⟩ :=
    allocBlock_ok h.room.maps hfree h.lastBlock (h.freeBlocks.exists_clear hfree)
  have hlast := Inode.grow_blk_self hblocks b
  have hcount := Inode.grow_blocks hblocks b
  -- the file system with the grown inode, after the new block was read
  let s₁ : Fs := { s.tookBlock b mb with ind := s.ind.grow b, dir := s.dev.vol.block b }
  have hvol₁ : s₁.dev.vol = { s.dev.vol with
      gd := { s.gdt with freeBlocksCount := s.gdt.freeBlocksCount - 1 }, blockMap := mb } :=
    vol_tookBlock b mb
  obtain ⟨idx, mi, halloci, hidx, hcleari, hmi⟩ :=
    allocInode_ok (s := s₁) h.room.maps h.inode h.lastInode
    (by rw [hvol₁]; exact h.freeInodes.exists_clear h.inode)
  obtain ⟨b', hfill, hentries, hslot, hterm⟩ :=
    firstEntry_spec (s.dev.vol.block b) hidx.ne_zero mode hlen
  let s' : Fs := { s₁.tookInode idx mi with
    dir := clearFrom b' 1, dev := (s₁.tookInode idx mi).dev.putBlock b (clearFrom b' 1) }
  have hrun : Ext2.enterNew s name mode = .ok (idx, s') := by
    have hread : rdDir { s.tookBlock b mb with ind := s.ind.grow b } b = .ok s₁ := by
      rw [rdDir_ok (by exact h.room) hb]
      simp only [vol_tookBlock]
      rfl
    have hwrite : wrDir { s₁.tookInode idx mi with dir := clearFrom b' 1 }
        ((s.ind.grow b).blk s.ind.blocks.toNat) = .ok s' := by
      rw [hlast]
      exact wrDir_ok (by exact h.room) hb
    refine bind_eq_ok.mpr ⟨_, hallocb, bind_eq_ok.mpr ⟨(), inBounds_pos hblocks, ?_⟩⟩
    refine bind_eq_ok.mpr ⟨s₁, hread, bind_eq_ok.mpr ⟨_, halloci, bind_eq_ok.mpr ⟨b', hfill, ?_⟩⟩⟩
    exact bind_eq_ok.mpr ⟨s', hwrite, rfl⟩
  have hvol : s'.dev.vol = { s.dev.vol with
      gd := s'.gdt
      blockMap := mb
      inodeMap := mi
      block := Function.update s.dev.vol.block b (clearFrom b' 1) } := by
    show (Device.putBlock _ _ _).vol = _
    rw [Device.vol_putBlock hb, vol_tookInode, hvol₁]
    rfl
  have hbit : ∀ c : UInt32, s.dev.vol.blockMap.bit c.toNat = true →
      s'.dev.vol.blockMap.bit c.toNat = true := fun c hc => by
    rw [hvol]
    show mb.bit c.toNat = true
    rw [hmb, hc, Bool.true_or]
  have hblock : ∀ c, s.dev.vol.blockMap.bit c.toNat = true →
      s'.dev.vol.block c = s.dev.vol.block c := fun c hc => by
    rw [hvol]
    exact Function.update_of_ne (ne_of_marked hc hclearb) ..
  have hself : s'.dev.vol.block b = clearFrom b' 1 := by
    rw [hvol]
    exact Function.update_self ..
  have hold : ∀ k, k < s.ind.blocks.toNat → s'.ind.blk k = s.ind.blk k := fun k hk =>
    Inode.grow_blk hk.ne
  have hnew : s'.ind.blk s.ind.blocks.toNat = b := hlast
  have hcount' : s'.ind.blocks.toNat = s.ind.blocks.toNat + 1 := hcount
  refine ⟨idx, s', hrun, ?_, hcount', rfl⟩
  exact {
    room := h.room
    isInode := hidx
    clear := by
      rw [hvol₁] at hcleari
      exact hcleari
    inode := by rw [hvol]
    lastBlock := hb
    counts := by
      rw [hvol]
      exact h.freeBlocks.take hfree hb hclearb hmb
    hasBlocks := by
      refine ⟨by omega, fun k hk => ?_⟩
      rcases Nat.lt_succ_iff_lt_or_eq.mp (hcount' ▸ hk) with hk | rfl
      · rw [hold k hk]
        exact h.hasBlocks.isBlock k hk
      · rwa [hnew]
    size := rfl
    dirMode := rfl
    marked := fun k hk => by
      rcases Nat.lt_succ_iff_lt_or_eq.mp (hcount' ▸ hk) with hk | rfl
      · rw [hold k hk]
        exact hbit _ (h.marked k hk)
      · rw [hnew, hvol]
        show mb.bit b.toNat = true
        rw [hmb]
        simp
    own := fun k k' hk hk' he => by
      rcases Nat.lt_succ_iff_lt_or_eq.mp (hcount' ▸ hk) with hk | rfl <;>
        rcases Nat.lt_succ_iff_lt_or_eq.mp (hcount' ▸ hk') with hk' | rfl
      · rw [hold k hk, hold k' hk'] at he
        exact h.own k k' hk hk' he
      · rw [hold k hk, hnew] at he
        exact absurd he (ne_of_marked (h.marked k hk) hclearb)
      · rw [hold k' hk', hnew] at he
        exact absurd he.symm (ne_of_marked (h.marked k' hk') hclearb)
      · rfl
    same := hold
    old := fun k hk => by
      rcases Nat.lt_succ_iff_lt_or_eq.mp (hcount' ▸ hk) with hk | rfl
      · exact .inl ⟨hk, hold k hk⟩
      · rw [hnew]
        exact .inr hclearb
    kept := fun l hl => by
      rw [hvol]
      show mb.bit l = true
      rw [hmb, hl, Bool.true_or]
    taken := fun l hl => by
      rw [hvol] at hl
      have hl : mb.bit l = true := hl
      rw [hmb, Bool.or_eq_true, decide_eq_true_eq] at hl
      exact hl.imp_right fun he => ⟨s.ind.blocks.toNat, by omega, by rw [hnew, he]⟩
    frame := fun c hc _ => hblock c hc
    numbers := fun hall => hall.setBlk hb s.ind.blocks.toNat
    inodeMap := fun l => by
      rw [hvol]
      show mi.bit l = _
      rw [hmi, hvol₁]
    freeInodes := by
      rw [hvol]
      refine h.freeInodes.take h.inode (by unfold IsInode inodeTableCount at hidx; omega)
        (k := idx.toNat - 1) ?_ fun l => ?_
      · rw [hvol₁] at hcleari
        exact hcleari
      · rw [hmi, hvol₁]
    lastInode := hidx
    root := rfl
    listed := by
      refine ⟨entries s.dev.vol s.ind, [], by simp, ?_⟩
      rw [entries, hcount', List.range_succ, List.flatMap_append, List.flatMap_singleton, hnew,
        hself, hentries, entries]
      congr 1
      refine List.flatMap_congr fun k hk => ?_
      have hk := List.mem_range.mp hk
      rw [hold k hk, hblock _ (h.marked k hk)]
    names := fun k hk => by
      rcases Nat.lt_succ_iff_lt_or_eq.mp (hcount' ▸ hk) with hk | rfl
      · rw [hold k hk, hblock _ (h.marked k hk)]
        exact h.names k hk
      · rwa [hnew, hself]
    stored := by
      refine ⟨s.ind.blocks.toNat, 0, by omega, by decide, ?_⟩
      rw [hnew, hself]
      exact .of_lt hlen (by decide) hslot hfill (.inr ⟨rfl, rfl⟩) }

end Enter

/-! ## The new inode -/

/-- The new inode was made, and nothing else changed. -/
structure Prepared (s s' : Fs) (idx par mode : UInt32) : Prop where
  room : s'.dev.Room
  inode : ∀ i, i ≠ idx → s'.dev.vol.inode i = s.dev.vol.inode i
  block : ∀ b : UInt32, s.dev.vol.blockMap.bit b.toNat = true →
    s'.dev.vol.block b = s.dev.vol.block b
  inodeMode : (s'.dev.vol.inode idx).mode = mode
  hasBlocks : HasBlocks (s'.dev.vol.inode idx)
  le_one : (s'.dev.vol.inode idx).blocks.toNat ≤ 1
  fresh : ∀ k, k < (s'.dev.vol.inode idx).blocks.toNat →
    s.dev.vol.blockMap.bit ((s'.dev.vol.inode idx).blk k).toNat = false
  bits : ∀ l, s'.dev.vol.blockMap.bit l = true ↔ s.dev.vol.blockMap.bit l = true ∨
    ∃ k, k < (s'.dev.vol.inode idx).blocks.toNat ∧ ((s'.dev.vol.inode idx).blk k).toNat = l
  newDir : has mode typeDir = true → (s'.dev.vol.inode idx).size = .ofNat (2 * dirSize) ∧
    entries s'.dev.vol (s'.dev.vol.inode idx) =
      [⟨.lit ".", idx, typeDir⟩, ⟨.lit "..", par, typeDir⟩] ∧
    ∀ k, k < (s'.dev.vol.inode idx).blocks.toNat →
      Terminated (s'.dev.vol.block ((s'.dev.vol.inode idx).blk k))
  newFile : has mode typeDir = false →
    (s'.dev.vol.inode idx).size = 0 ∧ (s'.dev.vol.inode idx).blocks = 0
  numbers : (s.dev.vol.inode idx).Numbered → (s'.dev.vol.inode idx).Numbered
  lastBlock : IsBlock s.lastAllocBlock → IsBlock s'.lastAllocBlock
  freeBlocks : Counts s.gdt.freeBlocksCount s.dev.vol.blockMap →
    Counts s'.gdt.freeBlocksCount s'.dev.vol.blockMap
  inodeMap : s'.dev.vol.inodeMap = s.dev.vol.inodeMap
  freeInodes : s'.gdt.freeInodesCount = s.gdt.freeInodesCount
  lastInode : s'.lastAllocInode = s.lastAllocInode
  root : s'.currentDir = s.currentDir

section Prepare

variable {s : Fs} {idx par mode : UInt32}

theorem indPrepare_file (h : s.dev.Room) (hidx : IsInode idx) (hdir : has mode typeDir = false)
    (hfile : has mode typeFile = true) :
    ∃ s', indPrepare s idx par mode = .ok s' ∧ Prepared s s' idx par mode := by
  let x : Inode := { s.dev.vol.inode idx with size := 0, blocks := 0, mode := mode }
  let s' : Fs := { s with ind := x, dev := s.dev.putInode idx x }
  have hrun : indPrepare s idx par mode = .ok s' := by
    rw [indPrepare, rdInd_ok h hidx, ok_bind, if_neg (by rw [hdir]; decide), if_pos hfile]
    exact wrInd_ok (by exact h) hidx
  have hvol : s'.dev.vol = s.dev.vol.setInode idx x := Device.vol_putInode hidx x
  have hself : s'.dev.vol.inode idx = x := by
    rw [hvol]
    exact Function.update_self ..
  have hzero : (s'.dev.vol.inode idx).blocks.toNat = 0 := by
    rw [hself]
    rfl
  have hnone : ∀ k, ¬k < (s'.dev.vol.inode idx).blocks.toNat := fun k => by
    rw [hzero]
    exact Nat.not_lt_zero k
  exact ⟨s', hrun, {
    room := h
    inode := fun i hi => by
      rw [hvol]
      exact Function.update_of_ne hi ..
    block := fun b _ => by
      rw [hvol]
      rfl
    inodeMode := by rw [hself]
    hasBlocks := ⟨hzero.le.trans (Nat.zero_le _), fun k hk => absurd hk (hnone k)⟩
    le_one := hzero.le.trans (Nat.zero_le _)
    fresh := fun k hk => absurd hk (hnone k)
    bits := fun l => by
      have hmap : s'.dev.vol.blockMap = s.dev.vol.blockMap := by
        rw [hvol]
        rfl
      rw [hmap]
      exact ⟨.inl, fun hl => hl.resolve_right fun ⟨k, hk, _⟩ => hnone k hk⟩
    newDir := fun hd => by
      rw [hdir] at hd
      cases hd
    newFile := fun _ => by
      rw [hself]
      exact ⟨rfl, rfl⟩
    numbers := fun hall => by
      rw [hself]
      exact hall
    lastBlock := fun hb => hb
    freeBlocks := fun hc => by
      rw [hvol]
      exact hc
    inodeMap := by
      rw [hvol]
      rfl
    freeInodes := rfl
    lastInode := rfl
    root := rfl }⟩

theorem indPrepare_dir (h : s.dev.Room) (hidx : IsInode idx) (hpar : IsInode par)
    (hdir : has mode typeDir = true) (hfree : s.gdt.freeBlocksCount ≠ 0)
    (hlast : IsBlock s.lastAllocBlock) (hcounts : Counts s.gdt.freeBlocksCount s.dev.vol.blockMap) :
    ∃ s', indPrepare s idx par mode = .ok s' ∧ Prepared s s' idx par mode := by
  -- the state with the loaded and initialised inode
  let s₁ : Fs :=
    { s with ind := { s.dev.vol.inode idx with size := .ofNat (2 * dirSize), blocks := 1 } }
  obtain ⟨b, m, halloc, hb, hclear, hm⟩ :=
    allocBlock_ok (s := s₁) h.maps hfree hlast (hcounts.exists_clear hfree)
  obtain ⟨hentries, hterm⟩ := dotBlock_spec s.dir hidx.ne_zero hpar.ne_zero
  let dir := dotBlock s.dir idx par
  let x : Inode := { s₁.ind.setBlk 0 b with mode := mode }
  let s₂ : Fs := { s₁.tookBlock b m with ind := s₁.ind.setBlk 0 b, dir := dir }
  let s' : Fs := { s₂ with ind := x, dev := (s₂.dev.putBlock b dir).putInode idx x }
  have hblk : x.blk 0 = b := by simp [x, Inode.setBlk, Inode.blk]
  have hrun : indPrepare s idx par mode = .ok s' := by
    have hwrite : wrDir s₂ (x.blk 0) = .ok { s₂ with dev := s₂.dev.putBlock b dir } := by
      rw [hblk]
      exact wrDir_ok (by exact h) hb
    have hind : wrInd { s₂ with ind := x, dev := s₂.dev.putBlock b dir } idx = .ok s' :=
      wrInd_ok (by exact h) hidx
    rw [indPrepare, rdInd_ok h hidx, ok_bind, if_pos hdir]
    refine bind_eq_ok.mpr ⟨_, halloc, ?_⟩
    exact bind_eq_ok.mpr ⟨_, rfl, bind_eq_ok.mpr ⟨dir, rfl, bind_eq_ok.mpr ⟨_, hwrite, hind⟩⟩⟩
  have hvol : s'.dev.vol = { s.dev.vol with
      gd := { s.gdt with freeBlocksCount := s.gdt.freeBlocksCount - 1 }
      blockMap := m
      inode := Function.update s.dev.vol.inode idx x
      block := Function.update s.dev.vol.block b dir } := by
    show (Device.putInode _ _ _).vol = _
    rw [Device.vol_putInode hidx, Device.vol_putBlock hb]
    show Vol.setInode (Vol.setBlock (s₁.tookBlock b m).dev.vol _ _) _ _ = _
    rw [vol_tookBlock]
    rfl
  have hinode : s'.dev.vol.inode idx = x := by
    rw [hvol]
    exact Function.update_self ..
  have hblock : s'.dev.vol.block b = dir := by
    rw [hvol]
    exact Function.update_self ..
  have hone : (s'.dev.vol.inode idx).blocks.toNat = 1 := by
    rw [hinode]
    rfl
  have hfirst : ∀ k, k < (s'.dev.vol.inode idx).blocks.toNat →
      (s'.dev.vol.inode idx).blk k = b := by
    intro k hk
    obtain rfl : k = 0 := by omega
    rw [hinode]
    exact hblk
  exact ⟨s', hrun, {
    room := h
    inode := fun i hi => by
      rw [hvol]
      exact Function.update_of_ne hi ..
    block := fun c hc => by
      rw [hvol]
      exact Function.update_of_ne (ne_of_marked hc hclear) ..
    inodeMode := by rw [hinode]
    hasBlocks := ⟨hone.le.trans (by decide), fun k hk => by rwa [hfirst k hk]⟩
    le_one := hone.le
    fresh := fun k hk => by rwa [hfirst k hk]
    bits := fun l => by
      have hbit : s'.dev.vol.blockMap.bit l =
          (s.dev.vol.blockMap.bit l || decide (l = b.toNat)) := by
        rw [hvol]
        exact hm l
      rw [hbit, Bool.or_eq_true, decide_eq_true_eq]
      refine or_congr_right ⟨fun he => ⟨0, by omega, by rw [hfirst 0 (by omega), he]⟩, ?_⟩
      rintro ⟨k, hk, he⟩
      rw [← he, hfirst k hk]
    newDir := fun _ => by
      refine ⟨by rw [hinode]; rfl, ?_, fun k hk => by rwa [hfirst k hk, hblock]⟩
      rw [entries, hone, List.range_one, List.flatMap_singleton, hfirst 0 (by omega), hblock,
        hentries]
    newFile := fun hd => by
      rw [hdir] at hd
      cases hd
    numbers := fun hall => by
      rw [hinode]
      exact hall.setBlk hb 0
    lastBlock := fun _ => hb
    freeBlocks := fun hc => by
      rw [hvol]
      exact hc.take hfree hb hclear hm
    inodeMap := by rw [hvol]
    freeInodes := rfl
    lastInode := rfl
    root := rfl }⟩

end Prepare

/-! ## The whole call -/

section Create

variable {s : Fs} {ridx mode : UInt32} {name : CStr}

theorem Consistent.loaded (h : Consistent s) (hc : Creatable s ridx mode) :
    Loaded { s with ind := s.dev.vol.inode ridx } where
  room := h.room
  hasBlocks := h.sound.blocks hc.live
  marked _ hk := h.sound.marked hc.live hk
  own _ _ hk hk' he := (h.sound.own hc.live hc.live hk hk' he).2
  names _ hk := h.sound.names hc.live hc.dir hk
  lastBlock := h.lastBlock
  lastInode := h.lastInode
  freeBlocks := h.freeBlocks
  freeInodes := h.freeInodes
  inode := hc.inode

/-- The test for a free slot: the size tells a full directory from one that is not. -/
theorem Consistent.size_ne_iff (h : Consistent s) (hc : Creatable s ridx mode) :
    (s.dev.vol.inode ridx).size ≠ (s.dev.vol.inode ridx).blocks * 512 ↔ ¬s.dev.vol.Full ridx := by
  have hsize := h.sound.size hc.live hc.dir
  have hle := (h.sound.blocks hc.live).le
  have hmul : ((s.dev.vol.inode ridx).blocks * 512).toNat =
      (s.dev.vol.inode ridx).blocks.toNat * 512 := by
    unfold ext2NBlocks at hle
    rw [UInt32.toNat_mul, show (512 : UInt32).toNat = 512 from rfl]
    omega
  rw [Ne, ← UInt32.toNat_inj, hmul, hsize, Vol.Full]
  unfold dirSize dirAmut
  omega

theorem Consistent.enter (h : Consistent s) (hc : Creatable s ridx mode) (hlen : name.length < 20) :
    ∃ idx s', (if (s.dev.vol.inode ridx).size ≠ (s.dev.vol.inode ridx).blocks * 512 then
        enterFree { s with ind := s.dev.vol.inode ridx } name mode
      else enterNew { s with ind := s.dev.vol.inode ridx } name mode) = .ok (idx, s') ∧
      Entered { s with ind := s.dev.vol.inode ridx } s' idx name mode ∧
      s'.ind.blocks.toNat =
        (s.dev.vol.inode ridx).blocks.toNat + (if s.dev.vol.Full ridx then 1 else 0) ∧
      (has mode typeDir = true → s'.gdt.freeBlocksCount ≠ 0) := by
  have hl := h.loaded hc
  have hblocks := hc.blocks
  by_cases hfull : s.dev.vol.Full ridx
  · rw [if_neg ((h.size_ne_iff hc).not.mpr (not_not.mpr hfull))]
    rw [if_pos hfull] at hblocks
    have hfree : s.gdt.freeBlocksCount ≠ 0 := by
      intro h0
      rw [h0, show (0 : UInt16).toNat = 0 from rfl] at hblocks
      omega
    have hfew := hc.few
    have hlt : (s.dev.vol.inode ridx).blocks.toNat < ext2NBlocks := by
      rw [hfull] at hfew
      unfold dirAmut dirSize ext2NBlocks at *
      omega
    obtain ⟨idx, s', hrun, hent, hgrown, hcount⟩ := hl.enterNew mode hlen hlt hfree
    refine ⟨idx, s', hrun, hent, by rwa [if_pos hfull], fun hd h0 => ?_⟩
    rw [if_pos hd] at hblocks
    have h1 : s.gdt.freeBlocksCount - 1 = 0 := hcount.symm.trans h0
    have h1' := congrArg UInt16.toNat h1
    have hlt := s.gdt.freeBlocksCount.toNat_lt
    rw [UInt16.toNat_sub, show (1 : UInt16).toNat = 1 from rfl,
      show (0 : UInt16).toNat = 0 from rfl] at h1'
    omega
  · rw [if_pos ((h.size_ne_iff hc).mpr hfull)]
    rw [if_neg hfull] at hblocks
    obtain ⟨idx, s', hrun, hent, hgrown, hcount⟩ := hl.enterFree mode hlen hfull
    refine ⟨idx, s', hrun, hent, by rwa [if_neg hfull], fun hd h0 => ?_⟩
    rw [if_pos hd] at hblocks
    have h0' : s.gdt.freeBlocksCount = 0 := hcount.symm.trans h0
    rw [h0', show (0 : UInt16).toNat = 0 from rfl] at hblocks
    omega

/-- The states in between: the name is entered, the inode of the directory is written, and the new
inode is made. -/
structure Steps (s s₁ s₂ s' : Fs) (ridx idx : UInt32) (name : CStr) (mode : UInt32) : Prop where
  entered : Entered { s with ind := s.dev.vol.inode ridx } s₁ idx name mode
  vol : s₂.dev.vol = s₁.dev.vol.setInode ridx { s₁.ind with size := s₁.ind.size + .ofNat dirSize }
  rest : s₂ = { s₁ with ind := s₂.ind, dev := s₂.dev }
  prepared : Prepared s₂ s' idx ridx mode
  grown : s₁.ind.blocks.toNat =
    (s.dev.vol.inode ridx).blocks.toNat + if s.dev.vol.Full ridx then 1 else 0

theorem Consistent.create_ok (h : Consistent s) (hc : Creatable s ridx mode)
    (hlen : name.length < 20) :
    ∃ idx s₁ s₂ s', create s ridx name mode = .ok (idx, s') ∧
      Steps s s₁ s₂ s' ridx idx name mode := by
  obtain ⟨idx, s₁, henter, hent, hgrown, hfree⟩ := h.enter hc hlen
  have hridx := hc.live.1
  -- the inode of the directory is written
  let x : Inode := { s₁.ind with size := s₁.ind.size + .ofNat dirSize }
  let s₂ : Fs := { s₁ with ind := x, dev := s₁.dev.putInode ridx x }
  have hvol₂ : s₂.dev.vol = s₁.dev.vol.setInode ridx x := Device.vol_putInode hridx x
  have hprep : ∃ s', indPrepare s₂ idx ridx mode = .ok s' ∧ Prepared s₂ s' idx ridx mode := by
    cases hd : has mode typeDir with
    | true =>
      refine indPrepare_dir hent.room hent.isInode hridx hd (hfree hd) hent.lastBlock ?_
      rw [hvol₂]
      exact hent.counts
    | false =>
      refine indPrepare_file hent.room hent.isInode hd (hc.mode.resolve_left ?_)
      rw [hd]
      decide
  obtain ⟨s', hprepare, hp⟩ := hprep
  have hsmall : (s.dev.vol.inode ridx).size < 4096 := by
    have hsize := h.sound.size hc.live hc.dir
    have hfew := hc.few
    rw [UInt32.lt_iff_toNat_lt, hsize]
    show _ < 4096
    unfold dirSize at *
    omega
  have hrun : create s ridx name mode = .ok (idx, s') := by
    rw [create, rdInd_ok h.room hridx, ok_bind]
    refine bind_eq_ok.mpr ⟨(), check_pos hsmall, ?_⟩
    have hwrite : wrInd { s₁ with ind := x } ridx = .ok s₂ := wrInd_ok (by exact hent.room) hridx
    -- the rest of the call is the same in both branches
    split_ifs at henter with hcase
    · refine (if_pos hcase).trans (bind_eq_ok.mpr ⟨_, henter, ?_⟩)
      exact bind_eq_ok.mpr ⟨s₂, hwrite, bind_eq_ok.mpr ⟨s', hprepare, rfl⟩⟩
    · refine (if_neg hcase).trans (bind_eq_ok.mpr ⟨_, henter, ?_⟩)
      exact bind_eq_ok.mpr ⟨s₂, hwrite, bind_eq_ok.mpr ⟨s', hprepare, rfl⟩⟩
  exact ⟨idx, s₁, s₂, s', hrun, hent, hvol₂, rfl, hp, hgrown⟩

namespace Steps

variable {s₁ s₂ s' : Fs} {idx : UInt32}

theorem ne_of_live (hs : Steps s s₁ s₂ s' ridx idx name mode) {i : UInt32}
    (hi : s.dev.vol.Live i) : i ≠ idx := by
  rintro rfl
  exact Bool.false_ne_true (hs.entered.clear.symm.trans hi.2)

/-- The directory. -/
theorem dir (hs : Steps s s₁ s₂ s' ridx idx name mode) (hr : s.dev.vol.Live ridx) :
    s'.dev.vol.inode ridx = { s₁.ind with size := s₁.ind.size + .ofNat dirSize } := by
  rw [hs.prepared.inode ridx (hs.ne_of_live hr), hs.vol]
  exact Function.update_self ..

theorem dir_blk (hs : Steps s s₁ s₂ s' ridx idx name mode) (hr : s.dev.vol.Live ridx) (k : Nat) :
    (s'.dev.vol.inode ridx).blk k = s₁.ind.blk k := by
  rw [hs.dir hr]
  rfl

theorem dir_blocks (hs : Steps s s₁ s₂ s' ridx idx name mode) (hr : s.dev.vol.Live ridx) :
    (s'.dev.vol.inode ridx).blocks = s₁.ind.blocks := by rw [hs.dir hr]

/-- The other inodes. -/
theorem other (hs : Steps s s₁ s₂ s' ridx idx name mode) {i : UInt32} (hr : i ≠ ridx)
    (hi : i ≠ idx) : s'.dev.vol.inode i = s.dev.vol.inode i := by
  rw [hs.prepared.inode i hi, hs.vol]
  show Function.update s₁.dev.vol.inode ridx _ i = _
  rw [Function.update_of_ne hr, hs.entered.inode]

theorem blockMap₂ (hs : Steps s s₁ s₂ s' ridx idx name mode) :
    s₂.dev.vol.blockMap = s₁.dev.vol.blockMap := by
  rw [hs.vol]
  rfl

/-- The blocks that are marked after the name was entered. -/
theorem block (hs : Steps s s₁ s₂ s' ridx idx name mode) {b : UInt32}
    (hb : s₁.dev.vol.blockMap.bit b.toNat = true) :
    s'.dev.vol.block b = s₁.dev.vol.block b := by
  rw [hs.prepared.block b (by rwa [hs.blockMap₂]), hs.vol]
  rfl

theorem bit_of_bit (hs : Steps s s₁ s₂ s' ridx idx name mode) {l : Nat}
    (hl : s₁.dev.vol.blockMap.bit l = true) : s'.dev.vol.blockMap.bit l = true :=
  (hs.prepared.bits l).mpr (.inl (by rwa [hs.blockMap₂]))

/-- The blocks of the new inode are new. -/
theorem fresh (hs : Steps s s₁ s₂ s' ridx idx name mode) {k : Nat}
    (hk : k < (s'.dev.vol.inode idx).blocks.toNat) :
    s₁.dev.vol.blockMap.bit ((s'.dev.vol.inode idx).blk k).toNat = false := by
  rw [← hs.blockMap₂]
  exact hs.prepared.fresh k hk

theorem inodeMap (hs : Steps s s₁ s₂ s' ridx idx name mode) (l : Nat) :
    s'.dev.vol.inodeMap.bit l = (s.dev.vol.inodeMap.bit l || decide (l = idx.toNat - 1)) := by
  rw [hs.prepared.inodeMap, hs.vol]
  exact hs.entered.inodeMap l

theorem live_iff (hs : Steps s s₁ s₂ s' ridx idx name mode) {i : UInt32} :
    s'.dev.vol.Live i ↔ s.dev.vol.Live i ∨ i = idx := by
  have hidx := hs.entered.isInode
  rw [Vol.Live, hs.inodeMap, Bool.or_eq_true, decide_eq_true_eq, and_or_left]
  refine or_congr_right ⟨?_, ?_⟩
  · rintro ⟨hi, he⟩
    have hi1 := hi.1
    have hidx1 := hidx.1
    exact UInt32.toNat_inj.mp (by omega)
  · rintro rfl
    exact ⟨hidx, rfl⟩

/-- A block of an inode in use is marked after the name was entered. -/
theorem marked₁ (hs : Steps s s₁ s₂ s' ridx idx name mode) (h : Consistent s)
    (hr : s.dev.vol.Live ridx) {i : UInt32} {k : Nat} (hi : s.dev.vol.Live i)
    (hk : k < (s'.dev.vol.inode i).blocks.toNat) :
    s₁.dev.vol.blockMap.bit ((s'.dev.vol.inode i).blk k).toNat = true := by
  rcases eq_or_ne i ridx with rfl | hne
  · rw [hs.dir_blocks hr] at hk
    rw [hs.dir_blk hr]
    exact hs.entered.marked k hk
  · rw [hs.other hne (hs.ne_of_live hi)] at hk ⊢
    exact hs.entered.kept _ (h.sound.marked hi hk)

/-- The other files keep the bytes of their blocks. -/
theorem content (hs : Steps s s₁ s₂ s' ridx idx name mode) (h : Consistent s)
    (hr : s.dev.vol.Live ridx) {i : UInt32} {k : Nat} (hi : s.dev.vol.Live i) (hne : i ≠ ridx)
    (hk : k < (s.dev.vol.inode i).blocks.toNat) :
    s'.dev.vol.block ((s.dev.vol.inode i).blk k) = s.dev.vol.block ((s.dev.vol.inode i).blk k) := by
  have hmark := h.sound.marked hi hk
  rw [hs.block (hs.entered.kept _ hmark)]
  exact hs.entered.frame _ hmark fun k' hk' he => hne (h.sound.own hi hr hk hk' he.symm).1

theorem entries_other (hs : Steps s s₁ s₂ s' ridx idx name mode) (h : Consistent s)
    (hr : s.dev.vol.Live ridx) {i : UInt32} (hi : s.dev.vol.Live i) (hne : i ≠ ridx) :
    entries s'.dev.vol (s'.dev.vol.inode i) = entries s.dev.vol (s.dev.vol.inode i) := by
  rw [hs.other hne (hs.ne_of_live hi)]
  exact List.flatMap_congr fun k hk => by rw [hs.content h hr hi hne (List.mem_range.mp hk)]

theorem entries_dir (hs : Steps s s₁ s₂ s' ridx idx name mode) (hr : s.dev.vol.Live ridx) :
    entries s'.dev.vol (s'.dev.vol.inode ridx) = entries s₁.dev.vol s₁.ind := by
  rw [entries, hs.dir_blocks hr]
  exact List.flatMap_congr fun k hk => by
    rw [hs.dir_blk hr, hs.block (hs.entered.marked k (List.mem_range.mp hk))]

theorem listed (hs : Steps s s₁ s₂ s' ridx idx name mode) (hr : s.dev.vol.Live ridx) :
    Inserted (entries s.dev.vol (s.dev.vol.inode ridx))
      (entries s'.dev.vol (s'.dev.vol.inode ridx)) ⟨name, idx, mode⟩ := by
  rw [hs.entries_dir hr]
  exact hs.entered.listed

theorem dir_size (hs : Steps s s₁ s₂ s' ridx idx name mode) (hr : s.dev.vol.Live ridx) :
    (s'.dev.vol.inode ridx).size = (s.dev.vol.inode ridx).size + .ofNat dirSize := by
  rw [hs.dir hr]
  exact congrArg (· + UInt32.ofNat dirSize) hs.entered.size

/-- Two inodes in use share no block. -/
theorem own (hs : Steps s s₁ s₂ s' ridx idx name mode) (h : Consistent s)
    (hr : s.dev.vol.Live ridx) {i i' : UInt32} {k k' : Nat} (hi : s.dev.vol.Live i)
    (hi' : s.dev.vol.Live i') (hk : k < (s'.dev.vol.inode i).blocks.toNat)
    (hk' : k' < (s'.dev.vol.inode i').blocks.toNat)
    (he : (s'.dev.vol.inode i).blk k = (s'.dev.vol.inode i').blk k') : i = i' ∧ k = k' := by
  -- a block of the directory is an old one or none of another inode
  have hmixed : ∀ {j l l'}, s.dev.vol.Live j → j ≠ ridx → l < s₁.ind.blocks.toNat →
      l' < (s.dev.vol.inode j).blocks.toNat → s₁.ind.blk l ≠ (s.dev.vol.inode j).blk l' := by
    intro j l l' hj hjr hl hl' heq
    obtain ⟨hold, hsame⟩ | hclear := hs.entered.old l hl
    · rw [hsame] at heq
      exact hjr (h.sound.own hr hj hold hl' heq).1.symm
    · have hclear : s.dev.vol.blockMap.bit (s₁.ind.blk l).toNat = false := hclear
      rw [heq, h.sound.marked hj hl'] at hclear
      cases hclear
  rcases eq_or_ne ridx i with rfl | hne <;> rcases eq_or_ne ridx i' with rfl | hne'
  · rw [hs.dir_blocks hr] at hk hk'
    rw [hs.dir_blk hr, hs.dir_blk hr] at he
    exact ⟨rfl, hs.entered.own k k' hk hk' he⟩
  · rw [hs.dir_blocks hr] at hk
    rw [hs.dir_blk hr] at he
    rw [hs.other hne'.symm (hs.ne_of_live hi')] at hk' he
    exact absurd he (hmixed hi' hne'.symm hk hk')
  · rw [hs.dir_blocks hr] at hk'
    rw [hs.dir_blk hr] at he
    rw [hs.other hne.symm (hs.ne_of_live hi)] at hk he
    exact absurd he.symm (hmixed hi hne.symm hk' hk)
  · rw [hs.other hne.symm (hs.ne_of_live hi)] at hk he
    rw [hs.other hne'.symm (hs.ne_of_live hi')] at hk' he
    exact h.sound.own hi hi' hk hk' he

theorem sound (hs : Steps s s₁ s₂ s' ridx idx name mode) (h : Consistent s)
    (hc : Creatable s ridx mode) : s'.dev.vol.Sound where
  blocks {i} hi := by
    rcases hs.live_iff.mp hi with hi | rfl
    · rcases eq_or_ne i ridx with rfl | hne
      · rw [hs.dir hc.live]
        exact ⟨hs.entered.hasBlocks.le, hs.entered.hasBlocks.isBlock⟩
      · rw [hs.other hne (hs.ne_of_live hi)]
        exact h.sound.blocks hi
    · exact hs.prepared.hasBlocks
  marked {i k} hi hk := by
    rcases hs.live_iff.mp hi with hi | rfl
    · exact hs.bit_of_bit (hs.marked₁ h hc.live hi hk)
    · exact (hs.prepared.bits _).mpr (.inr ⟨k, hk, rfl⟩)
  own {i i' k k'} hi hi' hk hk' he := by
    have hnew : ∀ {j l l'}, s.dev.vol.Live j → l < (s'.dev.vol.inode idx).blocks.toNat →
        l' < (s'.dev.vol.inode j).blocks.toNat →
        (s'.dev.vol.inode idx).blk l ≠ (s'.dev.vol.inode j).blk l' := by
      intro j l l' hj hl hl' heq
      have hclear := hs.fresh hl
      rw [heq, hs.marked₁ h hc.live hj hl'] at hclear
      cases hclear
    rcases hs.live_iff.mp hi with hi | rfl <;> rcases hs.live_iff.mp hi' with hi' | rfl
    · exact hs.own h hc.live hi hi' hk hk' he
    · exact absurd he.symm (hnew hi hk' hk)
    · exact absurd he (hnew hi' hk hk')
    · have hone := hs.prepared.le_one
      exact ⟨rfl, by omega⟩
  size {i} hi hd := by
    rcases hs.live_iff.mp hi with hi | rfl
    · rcases eq_or_ne i ridx with rfl | hne
      · obtain ⟨pre, post, hold, hnew⟩ := hs.listed hc.live
        have hsize := h.sound.size hc.live hc.dir
        have hfew := hc.few
        rw [hold, List.length_append] at hsize hfew
        rw [hs.dir_size hc.live, UInt32.toNat_add, hsize, hnew, List.length_append,
          List.length_cons]
        show (_ + 32) % 2 ^ 32 = _
        unfold dirSize at *
        omega
      · rw [hs.entries_other h hc.live hi hne]
        rw [hs.other hne (hs.ne_of_live hi)] at hd ⊢
        exact h.sound.size hi hd
    · rw [hs.prepared.inodeMode] at hd
      obtain ⟨hsize, hentries, -⟩ := hs.prepared.newDir hd
      rw [hsize, hentries]
      rfl
  names {i k} hi hd hk := by
    rcases hs.live_iff.mp hi with hi | rfl
    · rcases eq_or_ne i ridx with rfl | hne
      · rw [hs.dir_blocks hc.live] at hk
        rw [hs.dir_blk hc.live, hs.block (hs.entered.marked k hk)]
        exact hs.entered.names k hk
      · rw [hs.other hne (hs.ne_of_live hi)] at hd hk ⊢
        rw [hs.content h hc.live hi hne hk]
        exact h.sound.names hi hd hk
    · rw [hs.prepared.inodeMode] at hd
      exact (hs.prepared.newDir hd).2.2 k hk

theorem consistent (hs : Steps s s₁ s₂ s' ridx idx name mode) (h : Consistent s)
    (hc : Creatable s ridx mode) : Consistent s' where
  room := hs.prepared.room
  sound := hs.sound h hc
  lastBlock := hs.prepared.lastBlock (by rw [hs.rest]; exact hs.entered.lastBlock)
  lastInode := by
    rw [hs.prepared.lastInode, hs.rest]
    exact hs.entered.lastInode
  freeBlocks := hs.prepared.freeBlocks (by
    rw [hs.blockMap₂, hs.rest]
    exact hs.entered.counts)
  freeInodes := by
    rw [hs.prepared.freeInodes, hs.prepared.inodeMap, hs.vol, hs.rest]
    exact hs.entered.freeInodes

/-- `ext2_create` does what it is for. -/
theorem adds (hs : Steps s s₁ s₂ s' ridx idx name mode) (h : Consistent s)
    (hc : Creatable s ridx mode) : AddsEntry s s' ridx idx name mode where
  fresh := ⟨hs.entered.isInode, fun hl => hs.ne_of_live hl rfl⟩
  listed := by
    have hcons := hs.consistent h hc
    have hlive := hs.live_iff.mpr (.inl hc.live)
    have hdir : has (s'.dev.vol.inode ridx).mode typeDir = true := by
      rw [hs.dir hc.live]
      exact hs.entered.dirMode ▸ hc.dir
    exact ⟨_, _, lists_entries h.room hc.live.1 (h.sound.blocks hc.live) fun k hk =>
      h.sound.names hc.live hc.dir hk, lists_entries hcons.room hc.live.1
      (hcons.sound.blocks hlive) fun k hk => hcons.sound.names hlive hdir hk, hs.listed hc.live⟩
  size := hs.dir_size hc.live
  newDir hd := by
    obtain ⟨-, hentries, hterm⟩ := hs.prepared.newDir hd
    exact hentries ▸ lists_entries hs.prepared.room hs.entered.isInode hs.prepared.hasBlocks hterm
  newFile := hs.prepared.newFile
  others i hi hne := ⟨hs.other hne (hs.ne_of_live hi), fun k hk => hs.content h hc.live hi hne hk⟩
  stored := by
    obtain ⟨k, j, hk, hj, hstores⟩ := hs.entered.stored
    refine ⟨k, j, by rwa [hs.dir_blocks hc.live], hj, ?_⟩
    rw [hs.dir_blk hc.live, hs.block (hs.entered.marked k hk)]
    exact hstores

end Steps

/-- With a name of at most 19 bytes `ext2_create` adds the entry and nothing else. -/
theorem Consistent.adds (h : Consistent s) (hc : Creatable s ridx mode) (hlen : name.length < 20) :
    Adds s ridx name mode := by
  obtain ⟨idx, s₁, s₂, s', hrun, hs⟩ := h.create_ok hc hlen
  exact ⟨idx, s', hrun, hs.adds h hc⟩

/-- `ext2_create` adds an entry and changes nothing else exactly for the names of at most 19
bytes. -/
theorem create_adds_iff (h : Consistent s) (hc : Creatable s ridx mode) :
    Adds s ridx name mode ↔ name.length < 20 := by
  constructor
  · rintro ⟨idx, s', -, hadds⟩
    obtain ⟨k, j, -, -, hstores⟩ := hadds.stored
    exact hstores.length_lt
  · exact h.adds hc

end Create

/-- On a new volume files can be created in the root directory. -/
theorem creatable_root {size : Nat} (h : (Device.zero size).Room) :
    ∃ s, initRoot (.zero size) = .ok s ∧ Consistent s ∧ Creatable s s.currentDir typeFile := by
  obtain ⟨s, hrun, hcons, hlive, hdir, hone, hlen, hblocks, hinodes⟩ := initRoot_spec h
  refine ⟨s, hrun, hcons, hlive, hdir, ?_, ?_, ?_, .inr (by decide)⟩
  · rw [hlen]
    decide
  · rw [hinodes]
    decide
  · have hfree : ¬s.dev.vol.Full s.currentDir := by
      rw [Vol.Full, hlen, hone]
      decide
    rw [if_neg hfree, hblocks]
    decide

theorem create_adds_iff_root : ∃ s, initRoot (.zero rdSize) = .ok s ∧
    Adds s s.currentDir (.lit "a") typeFile := by
  obtain ⟨s, hrun, hcons, hc⟩ := creatable_root room_rdSize
  exact ⟨s, hrun, (create_adds_iff hcons hc).mpr (by decide)⟩

/-- A name of 24 bytes. -/
def longName : CStr := .lit "aaaaaaaaaaaaaaaaaaaaaaaa"

/-- The last bytes of the name are the inode number of another entry, which the directory
lists as well. -/
theorem longName_makes_two_entries : ∃ s, initRoot (.zero rdSize) = .ok s ∧ Consistent s ∧
    Creatable s s.currentDir typeFile ∧ ¬Adds s s.currentDir longName typeFile ∧
    ∃ idx s' t t', create s s.currentDir longName typeFile = .ok (idx, s') ∧
      readdir s s.currentDir 3 = .ok (none, t) ∧
      readdir s' s.currentDir 4 = .ok (some ⟨.lit "", 0x61616161, 0⟩, t') := by
  obtain ⟨s, hrun, hcons, hc⟩ := creatable_root room_rdSize
  refine ⟨s, hrun, hcons, hc, ?_, ?_⟩
  · rintro ⟨idx, s', -, hadds⟩
    obtain ⟨k, j, -, -, hstores⟩ := hadds.stored
    exact absurd hstores.length_lt (by decide)
  · obtain ⟨⟨⟨e, t⟩, ⟨idx, s'⟩, e', t'⟩, hr, htest⟩ := exists_of_test
      (x := do
        let s ← initRoot (.zero rdSize)
        let before ← readdir s s.currentDir 3
        let r ← create s s.currentDir longName typeFile
        let now ← readdir r.2 s.currentDir 4
        return (before, r, now))
      (f := fun y => decide (y.1.1 = none ∧ y.2.2.1 = some ⟨.lit "", 0x61616161, 0⟩))
      (by decide +kernel)
    obtain ⟨rfl, rfl⟩ := of_decide_eq_true htest
    rw [hrun, ok_bind] at hr
    obtain ⟨⟨_, _⟩, hbefore, hr⟩ := bind_eq_ok.mp hr
    obtain ⟨⟨_, _⟩, hcreate, hr⟩ := bind_eq_ok.mp hr
    obtain ⟨⟨_, _⟩, hnow, hr⟩ := bind_eq_ok.mp hr
    cases hr
    exact ⟨idx, s', t, t', hcreate, hbefore, hnow⟩

end OsWorkbench.Ext2
