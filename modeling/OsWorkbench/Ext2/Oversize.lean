import OsWorkbench.Ext2.Allocators
import OsWorkbench.Ext2.Independent

/-!
# Writes that cannot be satisfied

`ext2_write` extends the block list before anything else and checks neither the length of
`ind.block` nor what `ext2_alloc_block` returns. A text that is too long for an inode indexes the
array behind its end; one that is too long for the disk ends in an inode with the block `-1`.
-/

namespace OsWorkbench.Ext2

/-! ## What the call should do -/

/-- The text does not fit into an inode, or takes more blocks than there are. -/
def Unsatisfiable (s : Fs) (r : UInt32) (offset : UInt64) (len : UInt32) : Prop :=
  ext2NBlocks * blkSize < offset.toNat + len.toNat ∨
    (s.dev.vol.inode r).blocks.toNat + s.gdt.freeBlocksCount.toNat <
      (offset.toNat + len.toNat + (blkSize - 1)) / blkSize

/-- A short write: the file `r` has block numbers only, and nothing else changed but for the
blocks it owns now. -/
structure ShortWrite (s s' : Fs) (r : UInt32) (len ret : Nat) : Prop where
  short : ret < len
  numbers : ∀ k, k < (s'.dev.vol.inode r).blocks.toNat → (s'.dev.vol.inode r).blk k ≠ 0xffffffff
  inodes : ∀ i, i ≠ r → s'.dev.vol.inode i = s.dev.vol.inode i
  contents : ∀ i, s.dev.vol.Live i → i ≠ r → ∀ k, k < (s.dev.vol.inode i).blocks.toNat →
    s'.dev.vol.block ((s.dev.vol.inode i).blk k) = s.dev.vol.block ((s.dev.vol.inode i).blk k)
  inodeMap : s'.dev.vol.inodeMap = s.dev.vol.inodeMap
  blockMap : ∀ l, s'.dev.vol.blockMap.bit l = s.dev.vol.blockMap.bit l ∨
    ∃ k, k < (s'.dev.vol.inode r).blocks.toNat ∧ ((s'.dev.vol.inode r).blk k).toNat = l

/-- `ext2_write` returns and did no damage. -/
def WritesShort (s : Fs) (r : UInt32) (offset : UInt64) (buf : Nat → UInt8) (len : UInt32) : Prop :=
  ∃ ret s', write s r offset buf len = .ok (ret, s') ∧ ShortWrite s s' r len.toNat ret

/-! ## The block list -/

section Grow

variable {s s' : Fs} {n : Nat}

theorem Balanced.allocBlock (h : Balanced .blocks s) :
    ∃ b s', allocBlock s = .ok (b, s') ∧ Balanced .blocks s' ∧ s'.ind = s.ind ∧
      (s.gdt.freeBlocksCount = 0 → b = 0xffffffff ∧ s' = s) ∧
      (s.gdt.freeBlocksCount ≠ 0 → s'.gdt.freeBlocksCount = s.gdt.freeBlocksCount - 1) := by
  by_cases hc : s.gdt.freeBlocksCount = 0
  · exact ⟨_, s, alloc_none (k := .blocks) hc, h, rfl, fun _ => ⟨rfl, rfl⟩,
      fun hne => absurd hc hne⟩
  · obtain ⟨n, s', halloc, ht, hm, hl⟩ := h.alloc hc
    refine ⟨n, s', halloc, h.of_took hc ht hm hl, ?_, fun h0 => absurd h0 hc, fun _ => ht.count⟩
    obtain ⟨b, m, halloc', -⟩ := allocBlock_ok h.maps hc h.last (h.counts.exists_clear hc)
    have heq := Except.ok.inj (halloc.symm.trans halloc')
    rw [(Prod.mk.inj heq).2]
    rfl

/-- The array of the block numbers is left behind its end. -/
theorem growBlocks_error (h : Balanced .blocks s) (hle : s.ind.blocks.toNat ≤ ext2NBlocks)
    (hn : ext2NBlocks < s.ind.blocks.toNat + n) : growBlocks n s = .error .badAccess := by
  induction n generalizing s with
  | zero => omega
  | succ n ih =>
    obtain ⟨b, s', halloc, hbal, hind, -⟩ := h.allocBlock
    rw [growBlocks, halloc, ok_bind]
    show (inBounds (s'.ind.blocks.toNat < ext2NBlocks) >>= _) = _
    rw [hind]
    by_cases hlt : s.ind.blocks.toNat < ext2NBlocks
    · rw [inBounds_bind hlt]
      have hgrow := Inode.grow_blocks hlt b
      exact ih ⟨hbal.maps, hbal.counts, hbal.last⟩ (by show (s.ind.grow b).blocks.toNat ≤ _; omega)
        (by show _ < (s.ind.grow b).blocks.toNat + n; omega)
    · rw [inBounds_neg hlt]
      rfl

/-- When the blocks run out the last number is the failure value. -/
theorem growBlocks_last (h : Balanced .blocks s) (hle : s.ind.blocks.toNat + n ≤ ext2NBlocks) :
    ∃ s', growBlocks n s = .ok s' ∧ s'.ind.blocks.toNat = s.ind.blocks.toNat + n ∧
      (∀ k, k < s.ind.blocks.toNat → s'.ind.blk k = s.ind.blk k) ∧
      (s.gdt.freeBlocksCount.toNat < n → s'.ind.blk (s.ind.blocks.toNat + n - 1) = 0xffffffff) := by
  induction n generalizing s with
  | zero => exact ⟨s, rfl, rfl, fun _ _ => rfl, fun h0 => absurd h0 (Nat.not_lt_zero _)⟩
  | succ n ih =>
    obtain ⟨b, s₁, halloc, hbal, hind, hnone, hsome⟩ := h.allocBlock
    have hlt : s.ind.blocks.toNat < ext2NBlocks := by omega
    have hgrow := Inode.grow_blocks hlt b
    obtain ⟨s', hrun, hblocks, hkept, hlast⟩ := ih (s := { s₁ with ind := s.ind.grow b })
      ⟨hbal.maps, hbal.counts, hbal.last⟩ (by show (s.ind.grow b).blocks.toNat + n ≤ _; omega)
    refine ⟨s', ?_, ?_, fun k hk => ?_, fun hfree => ?_⟩
    · rw [growBlocks, halloc, ok_bind]
      show (inBounds (s₁.ind.blocks.toNat < ext2NBlocks) >>= _) = _
      rw [hind, inBounds_bind hlt]
      exact hrun
    · rw [hblocks]
      show (s.ind.grow b).blocks.toNat + n = _
      omega
    · rw [hkept k (by show k < (s.ind.grow b).blocks.toNat; omega)]
      exact Inode.grow_blk (by omega)
    · by_cases hn : n = 0
      · subst hn
        have h0 : s.gdt.freeBlocksCount = 0 := UInt16.toNat_inj.mp (by
          rw [show (0 : UInt16).toNat = 0 from rfl]
          omega)
        rw [show s.ind.blocks.toNat + (0 + 1) - 1 = s.ind.blocks.toNat by omega,
          hkept _ (by show _ < (s.ind.grow b).blocks.toNat; omega)]
        exact (Inode.grow_blk_self hlt b).trans (hnone h0).1
      · have hless : s₁.gdt.freeBlocksCount.toNat < n := by
          by_cases h0 : s.gdt.freeBlocksCount = 0
          · rw [(hnone h0).2, h0]
            exact Nat.pos_of_ne_zero hn
          · have hpos : s.gdt.freeBlocksCount.toNat ≠ 0 := fun he => h0 (UInt16.toNat_inj.mp he)
            have hlt16 := s.gdt.freeBlocksCount.toNat_lt
            rw [hsome h0, UInt16.toNat_sub, show (1 : UInt16).toNat = 1 from rfl]
            omega
        have hend := hlast hless
        rwa [show (s.ind.grow b).blocks.toNat + n - 1 = s.ind.blocks.toNat + (n + 1) - 1 by omega]
          at hend

end Grow

/-! ## The call -/

section Write

variable {s s' : Fs} {r len : UInt32} {offset : UInt64} {buf : Nat → UInt8}

/-- The loop over the blocks leaves the inode alone. -/
theorem writeBlocks_ind {skip need : Int} {first n ret ret' len : Nat} {i : Int}
    (h : writeBlocks buf len skip need first n i ret s = .ok (ret', s')) : s'.ind = s.ind := by
  induction n generalizing i ret s with
  | zero =>
    cases h
    rfl
  | succ n ih =>
    obtain ⟨_, -, h⟩ := bind_eq_ok.mp h
    obtain ⟨s₁, hread, h⟩ := bind_eq_ok.mp h
    obtain ⟨_, -, hread⟩ := bind_eq_ok.mp hread
    cases hread
    -- the three copies differ in the buffer only
    split_ifs at h
    all_goals
      obtain ⟨_, -, h⟩ := bind_eq_ok.mp h
      obtain ⟨_, hwrite, h⟩ := bind_eq_ok.mp h
      obtain ⟨_, -, hwrite⟩ := bind_eq_ok.mp hwrite
      cases hwrite
      have hind := ih h
      exact hind

theorem wrInd_dev (h : wrInd s r = .ok s') : s'.dev = s.dev.putInode r s.ind := by
  obtain ⟨d, hd, h⟩ := bind_eq_ok.mp h
  obtain ⟨_, -, hd⟩ := bind_eq_ok.mp hd
  cases hd
  cases h
  rfl

/-- The number of blocks for the text. -/
def needed (offset : UInt64) (len : UInt32) : Nat :=
  (offset.toNat + len.toNat + (blkSize - 1)) / blkSize

/-- What is left of the call for a text that needs more blocks than the file has. -/
theorem of_write (h : Consistent s) (hr : s.dev.vol.Live r)
    (hw : has (s.dev.vol.inode r).mode wrAble = true)
    (ho : offset.toNat ≤ (s.dev.vol.inode r).size.toNat)
    (hmore : (s.dev.vol.inode r).blocks.toNat < needed offset len) {ret : Nat}
    (hrun : write s r offset buf len = .ok (ret, s')) :
    ∃ s₁, growBlocks (needed offset len - (s.dev.vol.inode r).blocks.toNat)
        { s with ind := s.dev.vol.inode r } = .ok s₁ ∧
      s'.dev.vol.inode r = { s₁.ind with size := .ofNat (offset.toNat + len.toNat) } := by
  have hsize := (s.dev.vol.inode r).size.toNat_lt
  have hlen := len.toNat_lt
  have hneed : (len.toNat + offset.toNat + (blkSize - 1)) % 2 ^ 64 / blkSize % 2 ^ 32 =
      needed offset len := by
    unfold needed blkSize
    omega
  rw [write, rdInd_ok h.room hr.1, ok_bind, if_neg (by rw [hw]; decide)] at hrun
  simp only [hneed] at hrun
  rw [if_pos hmore.le] at hrun
  obtain ⟨s₁, hgrow, hrun⟩ := bind_eq_ok.mp hrun
  obtain ⟨t, hblocks, hrun⟩ := bind_eq_ok.mp hrun
  obtain ⟨s₂, hsave, hrun⟩ := bind_eq_ok.mp hrun
  cases hrun
  refine ⟨s₁, hgrow, ?_⟩
  rw [wrInd_dev hsave, Device.vol_putInode hr.1]
  show Function.update _ _ _ _ = _
  rw [Function.update_self, writeBlocks_ind hblocks]

/-- A text that is too long for an inode takes the call behind the end of `ind.block`. -/
theorem write_too_long (h : Consistent s) (hr : s.dev.vol.Live r)
    (hw : has (s.dev.vol.inode r).mode wrAble = true)
    (ho : offset.toNat ≤ (s.dev.vol.inode r).size.toNat) (hbig : ext2NBlocks < needed offset len) :
    ¬WritesShort s r offset buf len := by
  rintro ⟨ret, s', hrun, -⟩
  have hb := h.balanced .blocks
  have hle := (h.sound.blocks hr).le
  obtain ⟨s₁, hgrow, -⟩ := of_write h hr hw ho (by omega) hrun
  rw [growBlocks_error (s := { s with ind := s.dev.vol.inode r }) ⟨hb.maps, hb.counts, hb.last⟩ hle
    (by show _ < (s.dev.vol.inode r).blocks.toNat + _; omega)] at hgrow
  cases hgrow

/-- When the disk is full the call stores the failure value. -/
theorem write_disk_full (h : Consistent s) (hr : s.dev.vol.Live r)
    (hw : has (s.dev.vol.inode r).mode wrAble = true)
    (ho : offset.toNat ≤ (s.dev.vol.inode r).size.toNat) (hle : needed offset len ≤ ext2NBlocks)
    (hfree : (s.dev.vol.inode r).blocks.toNat + s.gdt.freeBlocksCount.toNat < needed offset len) :
    ¬WritesShort s r offset buf len := by
  rintro ⟨ret, s', hrun, hshort⟩
  have hb := h.balanced .blocks
  obtain ⟨s₁, hgrow, hinode⟩ := of_write h hr hw ho (by omega) hrun
  obtain ⟨s₁', hgrow', hcount, -, hlast⟩ := growBlocks_last
    (s := { s with ind := s.dev.vol.inode r })
    (n := needed offset len - (s.dev.vol.inode r).blocks.toNat) ⟨hb.maps, hb.counts, hb.last⟩
    (by show (s.dev.vol.inode r).blocks.toNat + _ ≤ _; omega)
  rw [hgrow] at hgrow'
  cases hgrow'
  have hbad := hshort.numbers (needed offset len - 1)
  rw [hinode] at hbad
  refine hbad ?_ ?_
  · show needed offset len - 1 < s₁.ind.blocks.toNat
    rw [hcount]
    show needed offset len - 1 < (s.dev.vol.inode r).blocks.toNat + _
    omega
  · have hend := hlast (by show s.gdt.freeBlocksCount.toNat < _; omega)
    show s₁.ind.blk (needed offset len - 1) = _
    rw [← hend]
    show _ = s₁.ind.blk ((s.dev.vol.inode r).blocks.toNat + _ - 1)
    congr 1
    omega

/-- No write that cannot be satisfied ends as it should. -/
theorem write_never_short (h : Consistent s) (hr : s.dev.vol.Live r)
    (hw : has (s.dev.vol.inode r).mode wrAble = true)
    (ho : offset.toNat ≤ (s.dev.vol.inode r).size.toNat) (hu : Unsatisfiable s r offset len) :
    ¬WritesShort s r offset buf len := by
  by_cases hbig : ext2NBlocks < needed offset len
  · exact write_too_long h hr hw ho hbig
  · refine write_disk_full h hr hw ho (not_lt.mp hbig) (hu.resolve_left fun hlong => hbig ?_)
    unfold needed ext2NBlocks blkSize at *
    omega

end Write

/-- On a new file system the first file is `hello.cpp`. -/
theorem init_hello : ∃ s r, init (.zero rdSize) (.lit "ramdisk1") = .ok s ∧ Consistent s ∧
    s.dev.vol.Live r ∧ (s.dev.vol.inode r).mode = fileMode := by
  have hname : (CStr.lit "ramdisk1").length < 16 := by decide
  obtain ⟨s, hrun⟩ := init_ok room_rdSize (clean_zero _) hname
  obtain ⟨b₀, b₁, b₂, c₀, c₁, c₂, j₁, j₂, hmade⟩ := of_init room_rdSize hname hrun
  exact ⟨s, .ofNat (c₁ + 1), hrun, hmade.consistent (clean_zero _) hname,
    (hmade.live_iff (clean_zero _)).mpr
    ⟨b₁, c₁, by simp, rfl, hmade.hello.blocks, hmade.hello.blk⟩, hmade.hello.mode⟩

theorem write_never_short_hello : ∃ s r, init (.zero rdSize) (.lit "ramdisk1") = .ok s ∧
    Unsatisfiable s r 0 6145 ∧ ¬WritesShort s r 0 (fun _ => 0x61) 6145 := by
  obtain ⟨s, r, hrun, hcons, hlive, hmode⟩ := init_hello
  have hu : Unsatisfiable s r 0 6145 := .inl (by decide)
  exact ⟨s, r, hrun, hu,
    write_never_short hcons hlive (by rw [hmode]; decide) (Nat.zero_le _) hu⟩

/-- 6145 bytes for `hello.cpp` are one too many. -/
theorem hello_too_long : ∃ s r, init (.zero rdSize) (.lit "ramdisk1") = .ok s ∧ Consistent s ∧
    s.dev.vol.Live r ∧ (s.dev.vol.inode r).mode = fileMode ∧ Unsatisfiable s r 0 6145 ∧
    ¬WritesShort s r 0 (fun _ => 0x61) 6145 := by
  obtain ⟨s, r, hrun, hcons, hlive, hmode⟩ := init_hello
  exact ⟨s, r, hrun, hcons, hlive, hmode, .inl (by decide),
    write_too_long hcons hlive (by rw [hmode]; decide) (Nat.zero_le _) (by decide)⟩

end OsWorkbench.Ext2
