import OsWorkbench.Ext2.Oversize

/-!
# The block list of a file

Before it writes, `ext2_write` takes blocks or gives blocks back until the inode has as many as
the text needs. Only the two bitmap records of the volume change, and the file shares no block
with anybody.
-/

namespace OsWorkbench.Ext2

/-- The inode that is loaded owns its blocks, and there are as many free blocks as the counter
says. -/
structure Holder (s : Fs) : Prop where
  room : s.dev.Room
  hasBlocks : HasBlocks s.ind
  marked : ∀ k, k < s.ind.blocks.toNat → s.dev.vol.blockMap.bit (s.ind.blk k).toNat = true
  own : ∀ k k', k < s.ind.blocks.toNat → k' < s.ind.blocks.toNat → s.ind.blk k = s.ind.blk k' →
    k = k'
  lastBlock : IsBlock s.lastAllocBlock
  freeBlocks : Counts s.gdt.freeBlocksCount s.dev.vol.blockMap

/-- The inode has `m` blocks now. -/
structure Resized (s s' : Fs) (m : Nat) : Prop where
  holder : Holder s'
  inodeMap : s'.dev.vol.inodeMap = s.dev.vol.inodeMap
  inode : s'.dev.vol.inode = s.dev.vol.inode
  block : s'.dev.vol.block = s.dev.vol.block
  mode : s'.ind.mode = s.ind.mode
  blocks : s'.ind.blocks.toNat = m
  kept : ∀ k, k < s.ind.blocks.toNat → k < m → s'.ind.blk k = s.ind.blk k
  fresh : ∀ k, s.ind.blocks.toNat ≤ k → k < m → s.dev.vol.blockMap.bit (s'.ind.blk k).toNat = false
  others : ∀ l, (∀ k, k < s.ind.blocks.toNat → (s.ind.blk k).toNat ≠ l) →
    (∀ k, k < m → (s'.ind.blk k).toNat ≠ l) → s'.dev.vol.blockMap.bit l = s.dev.vol.blockMap.bit l
  gone : ∀ k, k < s.ind.blocks.toNat → (∀ k', k' < m → s'.ind.blk k' ≠ s.ind.blk k) →
    s'.dev.vol.blockMap.bit (s.ind.blk k).toNat = false
  lastInode : s'.lastAllocInode = s.lastAllocInode
  freeInodes : s'.gdt.freeInodesCount = s.gdt.freeInodesCount
  free : s'.gdt.freeBlocksCount.toNat + m = s.gdt.freeBlocksCount.toNat + s.ind.blocks.toNat
  numbers : s.ind.Numbered → s'.ind.Numbered
  root : s'.currentDir = s.currentDir

namespace Resized

variable {s s₁ s' : Fs} {m m₁ : Nat}

theorem refl (h : Holder s) : Resized s s s.ind.blocks.toNat where
  holder := h
  inodeMap := rfl
  inode := rfl
  block := rfl
  mode := rfl
  blocks := rfl
  kept _ _ _ := rfl
  fresh _ hle hlt := absurd hlt (not_lt.mpr hle)
  others _ _ _ := rfl
  gone k hk hne := absurd rfl (hne k hk)
  lastInode := rfl
  freeInodes := rfl
  free := rfl
  numbers h := h
  root := rfl

/-- The old and the new blocks are marked. -/
theorem marked (h : Resized s s' m) {k : Nat} (hk : k < m) :
    s'.dev.vol.blockMap.bit (s'.ind.blk k).toNat = true :=
  h.holder.marked k (by rwa [h.blocks])

/-- A list that grows twice, or shrinks twice. -/
theorem trans (h : Resized s s₁ m₁) (h' : Resized s₁ s' m)
    (hmono : (s.ind.blocks.toNat ≤ m₁ ∧ m₁ ≤ m) ∨ (m ≤ m₁ ∧ m₁ ≤ s.ind.blocks.toNat)) :
    Resized s s' m := by
  have hm₁ := h.blocks
  have hkept : ∀ k, k < s.ind.blocks.toNat → k < m → s'.ind.blk k = s.ind.blk k := by
    intro k hk hkm
    rw [h'.kept k (by omega) hkm, h.kept k hk (by omega)]
  have hmid : ∀ k, k < m₁ → k < m → s'.ind.blk k = s₁.ind.blk k :=
    fun k hk hkm => h'.kept k (by omega) hkm
  -- a block of the file in between is an old one or a new one
  have hbetween : ∀ l, (∀ k, k < s.ind.blocks.toNat → (s.ind.blk k).toNat ≠ l) →
      (∀ k, k < m → (s'.ind.blk k).toNat ≠ l) →
      ∀ k, k < s₁.ind.blocks.toNat → (s₁.ind.blk k).toNat ≠ l := by
    intro l hold hnew k hk
    by_cases hkm : k < m
    · rw [← hmid k (by omega) hkm]
      exact hnew k hkm
    · rw [h.kept k (by omega) (by omega)]
      exact hold k (by omega)
  refine ⟨h'.holder, h'.inodeMap.trans h.inodeMap, h'.inode.trans h.inode, h'.block.trans h.block,
    h'.mode.trans h.mode, h'.blocks, hkept, fun k hle hkm => ?_, fun l hold hnew => ?_,
    fun k hk hnew => ?_, h'.lastInode.trans h.lastInode, h'.freeInodes.trans h.freeInodes, ?_,
    fun hall => h'.numbers (h.numbers hall), h'.root.trans h.root⟩
  · by_cases hk : k < m₁
    · rw [hmid k hk hkm]
      exact h.fresh k hle hk
    · have hclear := h'.fresh k (by omega) hkm
      by_contra hset
      have hset := Bool.eq_true_of_not_eq_false hset
      have hne : ∀ k', k' < m₁ → (s₁.ind.blk k').toNat ≠ (s'.ind.blk k).toNat := by
        intro k' hk' he
        have hmark := h.marked hk'
        rw [he, hclear] at hmark
        cases hmark
      have hsame := h.others _ (fun k' hk' => by
        rw [← h.kept k' hk' (by omega)]
        exact hne k' (by omega)) hne
      rw [hclear, hset] at hsame
      cases hsame
  · rw [h'.others l (hbetween l hold hnew) hnew]
    exact h.others l hold fun k hk => hbetween l hold hnew k (by omega)
  · by_cases hin : ∃ k', k' < m₁ ∧ s₁.ind.blk k' = s.ind.blk k
    · obtain ⟨k', hk', he⟩ := hin
      rw [← he]
      exact h'.gone k' (by omega) fun k'' hk'' => by
        rw [he]
        exact hnew k'' hk''
    · have hnone : ∀ k', k' < m₁ → s₁.ind.blk k' ≠ s.ind.blk k := fun k' hk' he => hin ⟨k', hk', he⟩
      rw [h'.others _ (fun k' hk' he => hnone k' (by omega) (UInt32.toNat_inj.mp he))
        fun k' hk' he => hnew k' hk' (UInt32.toNat_inj.mp he)]
      exact h.gone k hk hnone
  · have hfree := h.free
    have hfree' := h'.free
    omega

end Resized

/-! ## One block more -/

section Steps

variable {s : Fs} {n : Nat}

theorem toNat_pred {c : UInt16} (hc : c ≠ 0) : (c - 1).toNat + 1 = c.toNat := by
  have hpos : c.toNat ≠ 0 := fun he => hc (UInt16.toNat_inj.mp he)
  have hlt := c.toNat_lt
  rw [UInt16.toNat_sub, show (1 : UInt16).toNat = 1 from rfl]
  omega

theorem Holder.grow (h : Holder s) (hc : s.gdt.freeBlocksCount ≠ 0)
    (hlt : s.ind.blocks.toNat < ext2NBlocks) :
    ∃ s₁, growBlocks 1 s = .ok s₁ ∧ Resized s s₁ (s.ind.blocks.toNat + 1) := by
  obtain ⟨b, m, halloc, hb, hclear, hbits⟩ :=
    allocBlock_ok h.room.maps hc h.lastBlock (h.freeBlocks.exists_clear hc)
  have hgrow := Inode.grow_blocks hlt b
  have hself := Inode.grow_blk_self hlt b
  have hold : ∀ k, k < s.ind.blocks.toNat → (s.ind.grow b).blk k = s.ind.blk k :=
    fun k hk => Inode.grow_blk (by omega)
  have hne : ∀ k, k < s.ind.blocks.toNat → s.ind.blk k ≠ b :=
    fun k hk => ne_of_marked (h.marked k hk) hclear
  let s₁ : Fs := { s.tookBlock b m with ind := s.ind.grow b }
  have hvol : s₁.dev.vol = { s.dev.vol with
      gd := { s.gdt with freeBlocksCount := s.gdt.freeBlocksCount - 1 }, blockMap := m } :=
    vol_tookBlock b m
  have hmap : s₁.dev.vol.blockMap = m := by rw [hvol]
  have hcases : ∀ {P : Nat → UInt32 → Prop}, (∀ k, k < s.ind.blocks.toNat → P k (s.ind.blk k)) →
      P s.ind.blocks.toNat b → ∀ k, k < s.ind.blocks.toNat + 1 → P k ((s.ind.grow b).blk k) := by
    intro P hlow hlast k hk
    rcases Nat.lt_succ_iff_lt_or_eq.mp hk with hk | rfl
    · rw [hold k hk]
      exact hlow k hk
    · rw [hself]
      exact hlast
  refine ⟨s₁, ?_, ⟨h.room, ⟨?_, ?_⟩, ?_, ?_, hb, ?_⟩, by rw [hvol], by rw [hvol], by rw [hvol], rfl,
    hgrow, fun k hk _ => hold k hk, fun k hle hk => ?_, fun l _ hnew => ?_, fun k hk hnew => ?_,
    rfl, rfl, ?_, fun hall => hall.setBlk hb s.ind.blocks.toNat, rfl⟩
  · rw [growBlocks, halloc, ok_bind]
    exact inBounds_bind (β := Fs) hlt
  · show (s.ind.grow b).blocks.toNat ≤ _
    omega
  · show ∀ k, k < (s.ind.grow b).blocks.toNat → _
    rw [hgrow]
    exact hcases (P := fun _ c => IsBlock c) (fun k hk => h.hasBlocks.isBlock k hk) hb
  · show ∀ k, k < (s.ind.grow b).blocks.toNat → _
    rw [hgrow, hmap]
    refine hcases (P := fun _ c => m.bit c.toNat = true) (fun k hk => ?_) ?_
    · rw [hbits, h.marked k hk, Bool.true_or]
    · rw [hbits, decide_eq_true rfl, Bool.or_true]
  · show ∀ k k', k < (s.ind.grow b).blocks.toNat → k' < (s.ind.grow b).blocks.toNat → _
    intro k k' hk hk' he
    have he : (s.ind.grow b).blk k = (s.ind.grow b).blk k' := he
    rw [hgrow] at hk hk'
    rcases Nat.lt_succ_iff_lt_or_eq.mp hk with hk | rfl <;>
      rcases Nat.lt_succ_iff_lt_or_eq.mp hk' with hk' | rfl
    · rw [hold k hk, hold k' hk'] at he
      exact h.own k k' hk hk' he
    · rw [hold k hk, hself] at he
      exact absurd he (hne k hk)
    · rw [hold k' hk', hself] at he
      exact absurd he.symm (hne k' hk')
    · rfl
  · rw [hmap]
    exact h.freeBlocks.take hc hb hclear hbits
  · have hk : k = s.ind.blocks.toNat := by omega
    subst hk
    show s.dev.vol.blockMap.bit ((s.ind.grow b).blk s.ind.blocks.toNat).toNat = false
    rw [hself]
    exact hclear
  · have hl : b.toNat ≠ l := by
      rw [← hself]
      exact hnew _ (Nat.lt_succ_self _)
    rw [hmap, hbits, decide_eq_false (Ne.symm hl), Bool.or_false]
  · exact absurd (hold k hk) (hnew k (by omega))
  · have hpred := toNat_pred hc
    show (s.gdt.freeBlocksCount - 1).toNat + _ = _
    omega

theorem growBlocks_succ : growBlocks (n + 1) s = (do
    let s₁ ← growBlocks 1 s
    growBlocks n s₁) := by
  rw [growBlocks, growBlocks]
  cases allocBlock s with
  | error e => rfl
  | ok r =>
    rw [ok_bind, ok_bind]
    by_cases hlt : r.2.ind.blocks.toNat < ext2NBlocks
    · simp only [inBounds_bind hlt]
      rfl
    · simp only [inBounds_neg hlt]
      rfl

theorem Holder.growBlocks_ok (h : Holder s) (hle : s.ind.blocks.toNat + n ≤ ext2NBlocks)
    (hfree : n ≤ s.gdt.freeBlocksCount.toNat) :
    ∃ s', growBlocks n s = .ok s' ∧ Resized s s' (s.ind.blocks.toNat + n) := by
  induction n generalizing s with
  | zero => exact ⟨s, rfl, .refl h⟩
  | succ n ih =>
    have hc : s.gdt.freeBlocksCount ≠ 0 := by
      intro he
      rw [he] at hfree
      exact absurd hfree (Nat.not_succ_le_zero n)
    obtain ⟨s₁, hgrow, hone⟩ := h.grow hc (by omega)
    have hblocks := hone.blocks
    have hcount := hone.free
    obtain ⟨s', hrun, hrest⟩ := ih hone.holder (by omega) (by omega)
    rw [hblocks] at hrest
    refine ⟨s', by rw [growBlocks_succ, hgrow, ok_bind, hrun], ?_⟩
    have hall := hone.trans hrest (.inl ⟨by omega, by omega⟩)
    rwa [show s.ind.blocks.toNat + 1 + n = s.ind.blocks.toNat + (n + 1) by omega] at hall

/-! ## One block less -/

theorem Holder.shrink (h : Holder s) (hpos : s.ind.blocks.toNat ≠ 0) :
    ∃ s₁, shrinkBlocks 1 s = .ok s₁ ∧ Resized s s₁ (s.ind.blocks.toNat - 1) := by
  have hle := h.hasBlocks.le
  have hpred : (s.ind.blocks - 1).toNat = s.ind.blocks.toNat - 1 := by
    rw [UInt32.toNat_sub_of_le]
    · rfl
    · exact UInt32.le_iff_toNat_le.mpr (Nat.one_le_iff_ne_zero.mpr hpos)
  have hlast : s.ind.blocks.toNat - 1 < s.ind.blocks.toNat := by omega
  obtain ⟨m, hremove, hbits⟩ := removeBlock_ok
    (s := { s with ind.blocks := s.ind.blocks - 1 }) h.room.maps (h.hasBlocks.isBlock _ hlast)
  let s₁ : Fs := Fs.gaveBlock { s with ind.blocks := s.ind.blocks - 1 } m
  have hvol : s₁.dev.vol = { s.dev.vol with
      gd := { s.gdt with freeBlocksCount := s.gdt.freeBlocksCount + 1 }, blockMap := m } :=
    vol_gaveBlock m
  have hmap : s₁.dev.vol.blockMap = m := by rw [hvol]
  have hind : s₁.ind.blocks.toNat = s.ind.blocks.toNat - 1 := hpred
  refine ⟨s₁, ?_, ⟨h.room, ⟨by omega, fun k hk => h.hasBlocks.isBlock k (by omega)⟩, fun k hk => ?_,
    fun k k' hk hk' he => h.own k k' (by omega) (by omega) he, h.lastBlock, ?_⟩, by rw [hvol],
    by rw [hvol], by rw [hvol], rfl, hind, fun k _ _ => rfl, fun k hle hk => by omega,
    fun l hold _ => ?_, fun k hk hnew => ?_, rfl, rfl, ?_, fun hall => hall, rfl⟩
  · rw [shrinkBlocks]
    show (inBounds ((s.ind.blocks - 1).toNat < ext2NBlocks) >>= _) = _
    rw [inBounds_bind (by omega)]
    show (removeBlock _ (s.ind.blk (s.ind.blocks - 1).toNat) >>= _) = _
    rw [hpred, hremove]
    rfl
  · have hne : s.ind.blk k ≠ s.ind.blk (s.ind.blocks.toNat - 1) := fun he => by
      have hsame := h.own _ _ (by omega) hlast he
      omega
    show s₁.dev.vol.blockMap.bit (s.ind.blk k).toNat = true
    rw [hmap, hbits, h.marked k (by omega), Bool.true_and]
    exact decide_eq_true fun he => hne (UInt32.toNat_inj.mp he)
  · rw [hmap]
    exact h.freeBlocks.give (h.marked _ hlast) hbits
  · rw [hmap, hbits, decide_eq_true (Ne.symm (hold _ hlast)), Bool.and_true]
  · have hk' : k = s.ind.blocks.toNat - 1 := by
      by_contra hne
      exact hnew k (by omega) rfl
    subst hk'
    rw [hmap, hbits, decide_eq_false (not_not.mpr rfl), Bool.and_false]
  · have hcount : s.gdt.freeBlocksCount.toNat + s.dev.vol.blockMap.used.card = 8 * 512 :=
      h.freeBlocks
    have hadd : (s.gdt.freeBlocksCount + 1).toNat = s.gdt.freeBlocksCount.toNat + 1 := by
      rw [UInt16.toNat_add, show (1 : UInt16).toNat = 1 from rfl]
      omega
    show (s.gdt.freeBlocksCount + 1).toNat + _ = _
    omega

theorem shrinkBlocks_succ : shrinkBlocks (n + 1) s = (do
    let s₁ ← shrinkBlocks 1 s
    shrinkBlocks n s₁) := by
  rw [shrinkBlocks, shrinkBlocks]
  simp only [shrinkBlocks, bind_assoc]
  rfl

theorem Holder.shrinkBlocks_ok (h : Holder s) (hn : n ≤ s.ind.blocks.toNat) :
    ∃ s', shrinkBlocks n s = .ok s' ∧ Resized s s' (s.ind.blocks.toNat - n) := by
  induction n generalizing s with
  | zero => exact ⟨s, rfl, .refl h⟩
  | succ n ih =>
    obtain ⟨s₁, hshrink, hone⟩ := h.shrink (by omega)
    have hblocks := hone.blocks
    obtain ⟨s', hrun, hrest⟩ := ih hone.holder (by omega)
    rw [hblocks] at hrest
    refine ⟨s', by rw [shrinkBlocks_succ, hshrink, ok_bind, hrun], ?_⟩
    have hall := hone.trans hrest (.inr ⟨by omega, by omega⟩)
    rwa [show s.ind.blocks.toNat - 1 - n = s.ind.blocks.toNat - (n + 1) by omega] at hall

/-- `ext2_write` gives the inode `need` blocks. -/
theorem Holder.resize {need : Nat} (h : Holder s) (hle : need ≤ ext2NBlocks)
    (hfree : need ≤ s.ind.blocks.toNat + s.gdt.freeBlocksCount.toNat) :
    ∃ s', (if s.ind.blocks.toNat ≤ need then growBlocks (need - s.ind.blocks.toNat) s
      else shrinkBlocks (s.ind.blocks.toNat - need) s) = .ok s' ∧ Resized s s' need := by
  split
  case isTrue hmore =>
    obtain ⟨s', hrun, hres⟩ :=
      h.growBlocks_ok (n := need - s.ind.blocks.toNat) (by omega) (by omega)
    exact ⟨s', hrun, by rwa [Nat.add_sub_of_le hmore] at hres⟩
  case isFalse hless =>
    obtain ⟨s', hrun, hres⟩ := h.shrinkBlocks_ok (n := s.ind.blocks.toNat - need) (by omega)
    exact ⟨s', hrun, by rwa [Nat.sub_sub_self (Nat.le_of_not_le hless)] at hres⟩

end Steps

end OsWorkbench.Ext2
