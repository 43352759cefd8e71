import OsWorkbench.Ext2.Ownership
import OsWorkbench.Ext2.Refusals

/-!
# What a removal does

When the search stops at a slot with an inode, `ext2_remove` gives the inode and its blocks back
and clears the slot in its buffer. It writes the buffer to `ind.block[i]`, and `ind` is the removed
inode by then, not the directory.
-/

namespace OsWorkbench.Ext2

/-- What `ext2_remove` leaves of the inode: the size of a directory, the block list of a file. -/
def Inode.emptied (y : Inode) (mode : UInt32) : Inode :=
  if has mode typeDir then { y with size := 0, blocks := 0 }
  else { y with block := fun k => if k.val < y.blocks.toNat then 0 else y.block k }

/-! ## The blocks -/

/-- The blocks of the inode `y`, from number `m` on, were given back. -/
structure Freed (s s' : Fs) (y : Inode) (m n : Nat) : Prop where
  room : s'.dev.Room
  dir : s'.dir = s.dir
  lastBlock : s'.lastAllocBlock = s.lastAllocBlock
  lastInode : s'.lastAllocInode = s.lastAllocInode
  root : s'.currentDir = s.currentDir
  vol : s'.dev.vol = { s.dev.vol with gd := s'.dev.vol.gd, blockMap := s'.dev.vol.blockMap }
  bits : ∀ l, s'.dev.vol.blockMap.bit l = true ↔
    s.dev.vol.blockMap.bit l = true ∧ ∀ k, m ≤ k → k < m + n → (y.blk k).toNat ≠ l
  counts : Counts s'.gdt.freeBlocksCount s'.dev.vol.blockMap
  free : s'.gdt.freeBlocksCount.toNat = s.gdt.freeBlocksCount.toNat + n
  freeInodes : s'.gdt.freeInodesCount = s.gdt.freeInodesCount

/-- The loaded inode has blocks of its own to give back. -/
structure Frees (s : Fs) (m n : Nat) : Prop where
  room : s.dev.Room
  isBlock : ∀ k, m ≤ k → k < m + n → IsBlock (s.ind.blk k)
  marked : ∀ k, m ≤ k → k < m + n → s.dev.vol.blockMap.bit (s.ind.blk k).toNat = true
  own : ∀ k k', m ≤ k → k < m + n → m ≤ k' → k' < m + n → s.ind.blk k = s.ind.blk k' → k = k'
  counts : Counts s.gdt.freeBlocksCount s.dev.vol.blockMap

section Free

variable {s : Fs} {m n : Nat}

theorem Counts.toNat_succ {count : UInt16} {m : Block} (h : Counts count m) :
    (count + 1).toNat = count.toNat + 1 := by
  have hle : count.toNat ≤ 8 * 512 := by
    unfold Counts at h
    omega
  rw [UInt16.toNat_add, show (1 : UInt16).toNat = 1 from rfl]
  omega

/-- One block. -/
theorem Frees.one (h : Frees s m (n + 1)) (x : Inode) :
    ∃ s', removeBlock { s with ind := x } (s.ind.blk m) = .ok s' ∧ s'.ind = x ∧
      Freed s s' s.ind m 1 := by
  have hmark := h.marked m le_rfl (by omega)
  obtain ⟨map, hrun, hbits⟩ := removeBlock_ok (s := { s with ind := x }) h.room.maps
    (h.isBlock m le_rfl (by omega))
  have hvol := vol_gaveBlock (s := { s with ind := x }) map
  refine ⟨_, hrun, rfl, h.room, rfl, rfl, rfl, rfl, by rw [hvol], fun l => ?_, ?_,
    h.counts.toNat_succ, rfl⟩
  · rw [hvol]
    show map.bit l = true ↔ _
    rw [hbits, Bool.and_eq_true, decide_eq_true_eq]
    refine and_congr_right fun _ => ⟨fun hne k hk hlt he => ?_, fun hne he => ?_⟩
    · obtain rfl : k = m := by omega
      exact hne he.symm
    · exact hne m le_rfl (by omega) he.symm
  · rw [hvol]
    exact h.counts.give hmark hbits

/-- The loop of `ext2_remove` over the blocks of a file. -/
theorem Frees.freeBlocks_ok (h : Frees s m n) (hle : m + n ≤ ext2NBlocks) :
    ∃ s', freeBlocks n m s = .ok s' ∧ Freed s s' s.ind m n ∧ s'.ind = { s.ind with
      block := fun k => if m ≤ k.val ∧ k.val < m + n then 0 else s.ind.block k } := by
  induction n generalizing s m with
  | zero =>
    refine ⟨s, rfl, ⟨h.room, rfl, rfl, rfl, rfl, rfl, fun l => ?_, h.counts, rfl, rfl⟩, ?_⟩
    · exact ⟨fun hl => ⟨hl, fun k hk hlt => by omega⟩, fun hl => hl.1⟩
    · have hnone : ∀ k : Fin 12, ¬(m ≤ k.val ∧ k.val < m + 0) := fun k => by omega
      simp only [hnone, if_false]
  | succ n ih =>
    obtain ⟨s₁, hrun, hind, hone⟩ := h.one s.ind
    let s₂ : Fs := { s₁ with ind := s₁.ind.setBlk m 0 }
    have hblk : ∀ k, m + 1 ≤ k → s₂.ind.blk k = s.ind.blk k := by
      intro k hk
      have hkm : k ≠ m := by omega
      simp [s₂, hind, Inode.setBlk, Inode.blk, hkm]
    have hnext : Frees s₂ (m + 1) n := {
      room := hone.room
      isBlock := fun k hk hlt => by
        rw [hblk k hk]
        exact h.isBlock k (by omega) (by omega)
      marked := fun k hk hlt => by
        rw [hblk k hk]
        refine (hone.bits _).mpr ⟨h.marked k (by omega) (by omega), fun l hl hlt' he => ?_⟩
        have hsame := h.own l k hl (by omega) (by omega) (by omega) (UInt32.toNat_inj.mp he)
        omega
      own := fun k k' hk hlt hk' hlt' he => by
        rw [hblk k hk, hblk k' hk'] at he
        exact h.own k k' (by omega) (by omega) (by omega) (by omega) he
      counts := hone.counts }
    obtain ⟨s', hrest, hfreed, hind'⟩ := ih hnext (by omega)
    refine ⟨s', ?_, ⟨hfreed.room, hfreed.dir.trans hone.dir, hfreed.lastBlock.trans hone.lastBlock,
      hfreed.lastInode.trans hone.lastInode, hfreed.root.trans hone.root, ?_, fun l => ?_,
      hfreed.counts, ?_, ?_⟩, ?_⟩
    · rw [freeBlocks, inBounds_bind (by omega)]
      exact bind_eq_ok.mpr ⟨s₁, hrun, hrest⟩
    · rw [hfreed.vol, show s₂.dev = s₁.dev from rfl, hone.vol]
    · rw [hfreed.bits]
      show s₁.dev.vol.blockMap.bit l = true ∧ _ ↔ _
      rw [hone.bits, and_assoc]
      refine and_congr_right fun _ => ⟨?_, fun hall => ?_⟩
      · rintro ⟨hfirst, hothers⟩ k hk hlt
        obtain rfl | hmk := Nat.eq_or_lt_of_le hk
        · exact hfirst m le_rfl (by omega)
        · rw [← hblk k hmk]
          exact hothers k hmk (by omega)
      · refine ⟨fun k hk hlt => hall k hk (by omega), fun k hk hlt => ?_⟩
        rw [hblk k hk]
        exact hall k (by omega) (by omega)
    · rw [hfreed.free, show s₂.gdt = s₁.gdt from rfl, hone.free]
      omega
    · rw [hfreed.freeInodes]
      exact hone.freeInodes
    · rw [hind']
      simp only [s₂, hind, Inode.setBlk, Inode.mk.injEq, true_and, and_true]
      funext k
      by_cases hk : k.val = m
      · rw [if_neg (by omega), if_pos hk, if_pos (by omega)]
      · by_cases hin : m + 1 ≤ k.val ∧ k.val < m + 1 + n
        · rw [if_pos hin, if_pos (by omega)]
        · rw [if_neg hin, if_neg hk, if_neg (by omega)]

end Free

/-! ## The inode and the slot -/

/-- What `ext2_remove` makes of slot `j` of block `k` of the directory `ridx`, with the inode
`idx`. -/
structure Dropped (s s' : Fs) (ridx idx mode : UInt32) (k j : Nat) : Prop where
  room : s'.dev.Room
  inode : s'.dev.vol.inode = Function.update
    (Function.update s.dev.vol.inode idx ((s.dev.vol.inode idx).emptied mode)) ridx
    { s.dev.vol.inode ridx with size := (s.dev.vol.inode ridx).size - .ofNat dirSize }
  block : s'.dev.vol.block = Function.update s.dev.vol.block
    (((s.dev.vol.inode idx).emptied mode).blk k)
    (setDirInode (s.dev.vol.block ((s.dev.vol.inode ridx).blk k)) j 0)
  bits : ∀ l, s'.dev.vol.blockMap.bit l = true ↔ s.dev.vol.blockMap.bit l = true ∧
    ∀ m, m < (s.dev.vol.inode idx).blocks.toNat → ((s.dev.vol.inode idx).blk m).toNat ≠ l
  inodeMap : ∀ l, s'.dev.vol.inodeMap.bit l =
    (s.dev.vol.inodeMap.bit l && decide (l ≠ idx.toNat - 1))
  freeBlocks : s'.gdt.freeBlocksCount.toNat =
    s.gdt.freeBlocksCount.toNat + (s.dev.vol.inode idx).blocks.toNat
  freeInodes : s'.gdt.freeInodesCount = s.gdt.freeInodesCount + 1
  counts : Counts s'.gdt.freeBlocksCount s'.dev.vol.blockMap
  lastBlock : s'.lastAllocBlock = s.lastAllocBlock
  lastInode : s'.lastAllocInode = s.lastAllocInode
  root : s'.currentDir = s.currentDir

section Remove

variable {s t : Fs} {ridx idx mode : UInt32} {name : CStr} {k j : Nat}

theorem dropEntry_ok (h : t.dev.Room) (hridx : IsInode ridx) (hidx : IsInode idx)
    (hne : ridx ≠ idx) (hk : k < ext2NBlocks) (hb : IsBlock (t.ind.blk k))
    (hslot : dirInode t.dir j = idx) :
    ∃ m s', dropEntry t ridx k j = .ok (0, s') ∧
      (∀ l, m.bit l = (t.dev.vol.inodeMap.bit l && decide (l ≠ idx.toNat - 1))) ∧
      s'.dev.Room ∧ s'.dev.vol = { t.dev.vol with
        gd := s'.gdt
        inodeMap := m
        inode := Function.update (Function.update t.dev.vol.inode idx t.ind) ridx
          { t.dev.vol.inode ridx with size := (t.dev.vol.inode ridx).size - .ofNat dirSize }
        block := Function.update t.dev.vol.block (t.ind.blk k) (setDirInode t.dir j 0) } ∧
      s'.gdt = { t.gdt with freeInodesCount := t.gdt.freeInodesCount + 1 } ∧
      s'.lastAllocBlock = t.lastAllocBlock ∧ s'.lastAllocInode = t.lastAllocInode ∧
      s'.currentDir = t.currentDir := by
  let t₁ : Fs := { t with dev := t.dev.putInode idx t.ind }
  obtain ⟨m, hremove, hbits⟩ := removeInode_ok (s := t₁) h.maps hidx
  have hvol₁ : t₁.dev.vol = t.dev.vol.setInode idx t.ind := Device.vol_putInode hidx t.ind
  let b := setDirInode t.dir j 0
  let t₂ : Fs := { t₁.gaveInode m with
    dir := b
    dev := (t₁.gaveInode m).dev.putBlock (t.ind.blk k) b }
  have hvol₂ : t₂.dev.vol = { t.dev.vol with
      gd := t₂.gdt
      inodeMap := m
      inode := Function.update t.dev.vol.inode idx t.ind
      block := Function.update t.dev.vol.block (t.ind.blk k) b } := by
    show (Device.putBlock _ _ _).vol = _
    rw [Device.vol_putBlock hb, vol_gaveInode, hvol₁]
    rfl
  have hinode₂ : t₂.dev.vol.inode ridx = t.dev.vol.inode ridx := by
    rw [hvol₂]
    exact Function.update_of_ne hne ..
  let x : Inode :=
    { t.dev.vol.inode ridx with size := (t.dev.vol.inode ridx).size - .ofNat dirSize }
  let s' : Fs := { t₂ with ind := x, dev := t₂.dev.putInode ridx x }
  have hrun : dropEntry t ridx k j = .ok (0, s') := by
    have hwrite : wrInd t (dirInode t.dir j) = .ok t₁ := by
      rw [hslot]
      exact wrInd_ok h hidx
    have hgive : removeInode t₁ (dirInode t₁.dir j) = .ok (t₁.gaveInode m) := by
      rw [show dirInode t₁.dir j = idx from hslot]
      exact hremove
    have hdir : wrDir { t₁.gaveInode m with dir := b } (t.ind.blk k) = .ok t₂ :=
      wrDir_ok (by exact h) hb
    have hread : rdInd t₂ ridx = .ok { t₂ with ind := t.dev.vol.inode ridx } := by
      rw [rdInd_ok (by exact h) hridx, hinode₂]
    have hsave : wrInd { t₂ with ind := x } ridx = .ok s' := wrInd_ok (by exact h) hridx
    rw [dropEntry, hwrite, ok_bind, hgive, ok_bind, inBounds_bind hk]
    exact bind_eq_ok.mpr ⟨t₂, hdir, bind_eq_ok.mpr ⟨_, hread, bind_eq_ok.mpr ⟨s', hsave, rfl⟩⟩⟩
  refine ⟨m, s', hrun, fun l => ?_, h, ?_, rfl, rfl, rfl, rfl⟩
  · rw [hbits, hvol₁]
    rfl
  · show (Device.putInode _ _ _).vol = _
    rw [Device.vol_putInode hridx, hvol₂]
    rfl

theorem Inode.Numbered.emptied {y : Inode} (h : y.Numbered) (mode : UInt32) :
    (y.emptied mode).Numbered := by
  intro k
  have hk := h k
  unfold Inode.emptied
  split
  · exact hk
  · unfold Inode.blk at *
    split
    next hlt =>
      rw [dif_pos hlt] at hk
      dsimp only
      split
      · decide
      · exact hk
    next => decide

theorem Consistent.frees (h : Consistent s) (hi : s.dev.vol.Live idx) (dir : Block) :
    Frees { s with ind := s.dev.vol.inode idx, dir := dir } 0
      (s.dev.vol.inode idx).blocks.toNat where
  room := h.room
  isBlock k _ hk := (h.sound.blocks hi).isBlock k (by omega)
  marked k _ hk := h.sound.marked hi (by omega)
  own k k' _ hk _ hk' he := (h.sound.own hi hi (by omega) (by omega) he).2
  counts := h.freeBlocks

/-- With the slot that the search stops at, the call is these two steps. -/
theorem remove_eq (h : Consistent s) (hr : IsInode ridx) (hi : s.dev.vol.Live idx)
    (hl : ListedAt s.dev (s.dev.inodeAt ridx) name k j idx)
    (hempty : has mode typeDir = true → (s.dev.vol.inode idx).size = .ofNat (2 * dirSize) ∧
      (s.dev.vol.inode idx).blocks = 1) :
    ∃ t, remove s ridx name mode = dropEntry t ridx k j ∧
      t.ind = (s.dev.vol.inode idx).emptied mode ∧
      Freed { s with ind := s.dev.vol.inode idx, dir := s.dev.blockAt ((s.dev.inodeAt ridx).blk k) }
        t (s.dev.vol.inode idx) 0 (s.dev.vol.inode idx).blocks.toNat := by
  let s₁ : Fs := { s with ind := s.dev.inodeAt ridx }
  let s₂ : Fs := { s with
    ind := s.dev.vol.inode idx
    dir := s.dev.blockAt ((s.dev.inodeAt ridx).blk k) }
  have hsearch := searchName_some_iff (s := s₁) (n := (s.dev.inodeAt ridx).blocks.toNat)
    (i := 0) |>.mpr ⟨⟨Nat.zero_le k, hl.lt.trans_eq (Nat.zero_add _).symm, hl.hasDir, hl.first,
      hl.inode ▸ hl.idx_ne, fun k' _ hk' => hl.before k' hk'⟩, rfl⟩
  have hread : rdInd s ridx = .ok s₁ := by
    rw [rdInd_ok h.room hr, Device.inode_of_isInode hr]
  have hind : rdInd (s₁.readDir k) (dirInode (s₁.readDir k).dir j) = .ok s₂ := by
    rw [show dirInode (s₁.readDir k).dir j = idx from hl.inode, rdInd_ok (by exact h.room) hi.1]
    rfl
  have hfrees := h.frees hi (s.dev.blockAt ((s.dev.inodeAt ridx).blk k))
  have hle := (h.sound.blocks hi).le
  rw [remove, hread, ok_bind, hsearch, ok_bind]
  cases hd : has mode typeDir with
  | true =>
    obtain ⟨hsize, hone⟩ := hempty hd
    have hone' : (s.dev.vol.inode idx).blocks.toNat = 1 := by
      rw [hone]
      rfl
    rw [hone'] at hfrees ⊢
    obtain ⟨t, hrun, hind', hfreed⟩ :=
      hfrees.one { s.dev.vol.inode idx with size := 0, blocks := 0 }
    refine ⟨t, ?_, ?_, hfreed⟩
    · show (rdInd (s₁.readDir k) (dirInode (s₁.readDir k).dir j) >>= _) = _
      rw [hind, ok_bind, if_pos rfl, if_pos hsize, check_pos hone, ok_bind]
      dsimp only
      exact (congrArg (· >>= fun t => dropEntry t ridx k j) hrun).trans (ok_bind ..)
    · rw [hind', Inode.emptied, if_pos hd]
  | false =>
    obtain ⟨t, hrun, hfreed, hind'⟩ := hfrees.freeBlocks_ok (by omega)
    refine ⟨t, ?_, ?_, hfreed⟩
    · show (rdInd (s₁.readDir k) (dirInode (s₁.readDir k).dir j) >>= _) = _
      rw [hind, ok_bind, if_neg (by decide)]
      show (Ext2.freeBlocks _ _ _ >>= _) = _
      rw [hrun, ok_bind]
    · rw [hind', Inode.emptied, if_neg (by rw [hd]; decide)]
      simp only [Nat.zero_le, true_and, Nat.zero_add]

/-- A removal that finds an inode in use. -/
theorem remove_live (h : Consistent s) (hr : s.dev.vol.Live ridx) (hi : s.dev.vol.Live idx)
    (hne : ridx ≠ idx) (hnumbers : (s.dev.vol.inode idx).Numbered)
    (hl : ListedAt s.dev (s.dev.inodeAt ridx) name k j idx)
    (hempty : has mode typeDir = true → (s.dev.vol.inode idx).size = .ofNat (2 * dirSize) ∧
      (s.dev.vol.inode idx).blocks = 1) :
    ∃ s', remove s ridx name mode = .ok (0, s') ∧ Dropped s s' ridx idx mode k j := by
  obtain ⟨t, hrun, hind, hf⟩ := remove_eq h hr.1 hi hl hempty
  have hinode := Device.inode_of_isInode (d := s.dev) hr.1
  have hblock : s.dev.blockAt ((s.dev.inodeAt ridx).blk k) =
      s.dev.vol.block ((s.dev.vol.inode ridx).blk k) := by
    have hk := hl.lt
    rw [← hinode] at hk ⊢
    exact (Device.block_of_isBlock ((h.sound.blocks hr).isBlock k hk)).symm
  obtain ⟨m, s', hdrop, hbits, hroom, hvol, hgdt, hlastb, hlasti, hroot⟩ := dropEntry_ok
    (t := t) (j := j) hf.room hr.1 hi.1 hne hl.hasDir.1
    (by rw [hind]; exact hnumbers.emptied mode k) (by rw [hf.dir]; exact hl.inode)
  refine ⟨s', hrun.trans hdrop, ?_⟩
  exact {
    room := hroom
    inode := by
      rw [hvol, hf.vol, hind]
    block := by
      rw [hvol, hf.vol, hind, hf.dir, ← hblock]
    bits := fun l => by
      rw [hvol]
      refine (hf.bits l).trans (and_congr_right fun _ => ?_)
      exact ⟨fun hall m hm => hall m (Nat.zero_le m) (by omega),
        fun hall m _ hm => hall m (by omega)⟩
    inodeMap := fun l => by
      rw [hvol]
      show m.bit l = _
      rw [hbits, hf.vol]
    freeBlocks := by
      rw [hgdt]
      exact hf.free
    freeInodes := by
      rw [hgdt]
      exact congrArg (· + 1) hf.freeInodes
    counts := by
      rw [hgdt, hvol]
      exact hf.counts
    lastBlock := hlastb.trans hf.lastBlock
    lastInode := hlasti.trans hf.lastInode
    root := hroot.trans hf.root }

/-! ## The slot of a removal -/

/-- There is no inode 0: its bit is far behind the bitmap. -/
theorem removeInode_zero {s' : Fs} : removeInode s 0 ≠ .ok s' := by
  intro h
  obtain ⟨_, -, h⟩ := bind_eq_ok.mp h
  obtain ⟨_, hdrop, -⟩ := bind_eq_ok.mp h
  obtain ⟨_, hbound, -⟩ := bind_eq_ok.mp hdrop
  exact absurd (inBounds_eq_ok.mp hbound) (by decide)

theorem dropEntry_ne_zero {r : Nat × Fs} (h : dropEntry t ridx k j = .ok r) :
    dirInode t.dir j ≠ 0 := by
  intro hzero
  obtain ⟨t₁, hwrite, h⟩ := bind_eq_ok.mp h
  obtain ⟨_, hremove, -⟩ := bind_eq_ok.mp h
  obtain ⟨_, -, hwrite⟩ := bind_eq_ok.mp hwrite
  cases hwrite
  rw [show dirInode _ _ = 0 from hzero] at hremove
  exact removeInode_zero hremove

theorem removeBlock_dir {b : UInt32} {s' : Fs} (h : removeBlock s b = .ok s') : s'.dir = s.dir := by
  obtain ⟨_, hread, h⟩ := bind_eq_ok.mp h
  obtain ⟨_, -, hread⟩ := bind_eq_ok.mp hread
  cases hread
  obtain ⟨_, -, h⟩ := bind_eq_ok.mp h
  obtain ⟨_, hwrite, h⟩ := bind_eq_ok.mp h
  obtain ⟨_, -, hwrite⟩ := bind_eq_ok.mp hwrite
  cases hwrite
  obtain ⟨_, -, h⟩ := bind_eq_ok.mp h
  cases h
  rfl

theorem freeBlocks_dir {n m : Nat} {s' : Fs} (h : freeBlocks n m s = .ok s') : s'.dir = s.dir := by
  induction n generalizing m s with
  | zero =>
    cases h
    rfl
  | succ n ih =>
    obtain ⟨_, -, h⟩ := bind_eq_ok.mp h
    obtain ⟨_, hremove, h⟩ := bind_eq_ok.mp h
    have hdir := removeBlock_dir hremove
    exact (ih h).trans hdir

/-- A removal that succeeds found a slot with an inode, and an empty directory has one block. -/
theorem of_remove {s' : Fs} (h : remove s ridx name mode = .ok (0, s')) :
    ∃ k j idx, ListedAt s.dev (s.dev.inodeAt ridx) name k j idx ∧ idx ≠ 0 ∧
      (has mode typeDir = true → (s.dev.inodeAt idx).size = .ofNat (2 * dirSize) ∧
        (s.dev.inodeAt idx).blocks = 1) := by
  obtain ⟨s₁, hind, h⟩ := bind_eq_ok.mp h
  obtain ⟨-, rfl⟩ := rdInd_eq_ok.mp hind
  obtain ⟨⟨found, s₂⟩, hsearch, h⟩ := bind_eq_ok.mp h
  cases found with
  | none => cases h
  | some kj =>
    obtain ⟨k, j⟩ := kj
    obtain ⟨⟨-, hk, hdir, hfirst, hidx, hbefore⟩, rfl⟩ := searchName_some_iff.mp hsearch
    obtain ⟨s₃, hind, h⟩ := bind_eq_ok.mp h
    obtain ⟨-, rfl⟩ := rdInd_eq_ok.mp hind
    refine ⟨k, j, _, ⟨hk.trans_eq (Nat.zero_add _), hdir, hfirst, rfl, hidx, fun k' hk' =>
      hbefore k' (Nat.zero_le k') hk'⟩, ?_⟩
    split at h
    next hmode =>
      split at h
      next hsize =>
        obtain ⟨_, hcheck, h⟩ := bind_eq_ok.mp h
        obtain ⟨t, hremove, h⟩ := bind_eq_ok.mp h
        have hslot := dropEntry_ne_zero h
        rw [removeBlock_dir hremove] at hslot
        exact ⟨hslot, fun _ => ⟨hsize, check_eq_ok.mp hcheck⟩⟩
      next => cases h
    next hmode =>
      obtain ⟨t, hfree, h⟩ := bind_eq_ok.mp h
      have hslot := dropEntry_ne_zero h
      rw [freeBlocks_dir hfree] at hslot
      exact ⟨hslot, fun hd => absurd hd hmode⟩

end Remove

end OsWorkbench.Ext2
