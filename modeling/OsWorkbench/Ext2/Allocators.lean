import OsWorkbench.Ext2.Consistent

/-!
# The bitmap allocators

What any sequence of allocations and removals keeps, for the blocks and for the inodes: the
counter of the group descriptor is the number of clear bits of the map. This is what ends the
search for a byte that is not `0xff`.
-/

namespace OsWorkbench.Ext2

/-- The two bitmaps of a device. -/
inductive Bitmap
  | blocks
  | inodes

namespace Bitmap

/-- `ext2_alloc_block` and `ext2_alloc_inode`. -/
def alloc : Bitmap → Fs → Except Fault (UInt32 × Fs)
  | blocks, s => allocBlock s
  | inodes, s => allocInode s

/-- `ext2_remove_block` and `ext2_remove_inode`. -/
def remove : Bitmap → Fs → UInt32 → Except Fault Fs
  | blocks, s, n => removeBlock s n
  | inodes, s, n => removeInode s n

/-- The bitmap on the device. -/
def map : Bitmap → Fs → Block
  | blocks, s => s.dev.vol.blockMap
  | inodes, s => s.dev.vol.inodeMap

def count : Bitmap → Fs → UInt16
  | blocks, s => s.gdt.freeBlocksCount
  | inodes, s => s.gdt.freeInodesCount

def last : Bitmap → Fs → UInt32
  | blocks, s => s.lastAllocBlock
  | inodes, s => s.lastAllocInode

/-- The numbers that are given out. -/
def IsNum : Bitmap → UInt32 → Prop
  | blocks, n => IsBlock n
  | inodes, n => IsInode n

/-- The bit of a number. -/
def index : Bitmap → UInt32 → Nat
  | blocks, n => n.toNat
  | inodes, n => n.toNat - 1

end Bitmap

/-- The map has as many clear bits as the counter says. -/
structure Balanced (k : Bitmap) (s : Fs) : Prop where
  maps : s.dev.Maps
  counts : Counts (k.count s) (k.map s)
  last : k.IsNum (k.last s)

def Allocated (k : Bitmap) (s : Fs) (n : UInt32) : Prop :=
  k.IsNum n ∧ (k.map s).bit (k.index n) = true

theorem Consistent.balanced {s : Fs} (h : Consistent s) (k : Bitmap) : Balanced k s := by
  cases k with
  | blocks => exact ⟨h.room.maps, h.freeBlocks, h.lastBlock⟩
  | inodes => exact ⟨h.room.maps, h.freeInodes, h.lastInode⟩

/-- What any number of allocations and removals lead to, where only allocated numbers are
removed. -/
inductive Allocs (k : Bitmap) (s₀ : Fs) : Fs → Prop
  | start : Allocs k s₀ s₀
  | alloc {s s' : Fs} {n : UInt32} : Allocs k s₀ s → k.alloc s = .ok (n, s') → Allocs k s₀ s'
  | remove {s s' : Fs} {n : UInt32} : Allocs k s₀ s → Allocated k s n → k.remove s n = .ok s' →
      Allocs k s₀ s'

section Steps

variable {k : Bitmap} {s s' : Fs} {n : UInt32}

/-- The number is the one whose bit was clear and is set now. -/
structure Took (k : Bitmap) (s s' : Fs) (n : UInt32) : Prop where
  isNum : k.IsNum n
  clear : (k.map s).bit (k.index n) = false
  bits : ∀ l, (k.map s').bit l = ((k.map s).bit l || decide (l = k.index n))
  count : k.count s' = k.count s - 1

/-- The bit of the number is clear now, and the others are as they were. -/
structure Gave (k : Bitmap) (s s' : Fs) (n : UInt32) : Prop where
  bits : ∀ l, (k.map s').bit l = ((k.map s).bit l && decide (l ≠ k.index n))
  count : k.count s' = k.count s + 1

theorem Balanced.alloc (h : Balanced k s) (hc : k.count s ≠ 0) :
    ∃ n s', k.alloc s = .ok (n, s') ∧ Took k s s' n ∧ s'.dev.Maps ∧ k.last s' = n := by
  have hclear := h.counts.exists_clear hc
  cases k with
  | blocks =>
    obtain ⟨n, m, halloc, hn, hfree, hbits⟩ := allocBlock_ok h.maps hc h.last hclear
    refine ⟨n, _, halloc, ⟨hn, hfree, fun l => ?_, rfl⟩, h.maps, rfl⟩
    show (s.tookBlock n m).dev.vol.blockMap.bit l = _
    rw [vol_tookBlock]
    exact hbits l
  | inodes =>
    obtain ⟨n, m, halloc, hn, hfree, hbits⟩ := allocInode_ok h.maps hc h.last hclear
    refine ⟨n, _, halloc, ⟨hn, hfree, fun l => ?_, rfl⟩, h.maps, rfl⟩
    show (s.tookInode n m).dev.vol.inodeMap.bit l = _
    rw [vol_tookInode]
    exact hbits l

theorem alloc_none (hc : k.count s = 0) : k.alloc s = .ok (0xffffffff, s) := by
  cases k with
  | blocks => exact if_pos hc
  | inodes => exact if_pos hc

theorem remove_ok (h : s.dev.Maps) (hn : k.IsNum n) :
    ∃ s', k.remove s n = .ok s' ∧ Gave k s s' n ∧ s'.dev.Maps ∧ k.last s' = k.last s := by
  cases k with
  | blocks =>
    obtain ⟨m, hremove, hbits⟩ := removeBlock_ok h hn
    refine ⟨_, hremove, ⟨fun l => ?_, rfl⟩, h, rfl⟩
    show (s.gaveBlock m).dev.vol.blockMap.bit l = _
    rw [vol_gaveBlock]
    exact hbits l
  | inodes =>
    obtain ⟨m, hremove, hbits⟩ := removeInode_ok h hn
    refine ⟨_, hremove, ⟨fun l => ?_, rfl⟩, h, rfl⟩
    show (s.gaveInode m).dev.vol.inodeMap.bit l = _
    rw [vol_gaveInode]
    exact hbits l

theorem index_lt (hn : k.IsNum n) : k.index n < 8 * 512 := by
  cases k with
  | blocks => exact hn
  | inodes =>
    have hle : n.toNat ≤ 4096 := hn.2
    have hpos : 1 ≤ n.toNat := hn.1
    show n.toNat - 1 < _
    omega

theorem Balanced.of_took (h : Balanced k s) (hc : k.count s ≠ 0) (ht : Took k s s' n)
    (hm : s'.dev.Maps) (hl : k.last s' = n) : Balanced k s' where
  maps := hm
  counts := by
    rw [ht.count]
    exact h.counts.take hc (index_lt ht.isNum) ht.clear ht.bits
  last := by
    rw [hl]
    exact ht.isNum

theorem Balanced.of_gave (h : Balanced k s) (ha : Allocated k s n) (hg : Gave k s s' n)
    (hm : s'.dev.Maps) (hl : k.last s' = k.last s) : Balanced k s' where
  maps := hm
  counts := by
    rw [hg.count]
    exact h.counts.give ha.2 hg.bits
  last := by
    rw [hl]
    exact h.last

theorem Balanced.allocs {s₀ : Fs} (h : Balanced k s₀) (hs : Allocs k s₀ s) : Balanced k s := by
  induction hs with
  | start => exact h
  | @alloc s s' n _ halloc ih =>
    by_cases hc : k.count s = 0
    · rw [alloc_none hc] at halloc
      cases halloc
      exact ih
    · obtain ⟨n', s'', halloc', ht, hm, hl⟩ := ih.alloc hc
      rw [halloc] at halloc'
      cases halloc'
      exact ih.of_took hc ht hm hl
  | remove _ ha hremove ih =>
    obtain ⟨s'', hremove', hg, hm, hl⟩ := remove_ok ih.maps ha.1
    rw [hremove] at hremove'
    cases hremove'
    exact ih.of_gave ha hg hm hl

/-- A number that is taken and given back leaves the map and the counter as they were. -/
theorem Took.gave {s'' : Fs} (ht : Took k s s' n) (hg : Gave k s' s'' n) :
    k.map s'' = k.map s ∧ k.count s'' = k.count s := by
  refine ⟨Bytes.ext_bit fun l => ?_, ?_⟩
  · rw [hg.bits, ht.bits]
    by_cases hl : l = k.index n
    · subst hl
      simp [ht.clear]
    · simp [hl]
  · rw [hg.count, ht.count, UInt16.sub_add_cancel]

end Steps

/-- What the allocator of a map does. -/
structure Allocates (k : Bitmap) (s : Fs) : Prop where
  counts : (k.count s).toNat + (k.map s).used.card = 4096
  alloc : k.count s ≠ 0 → ∃ n s', k.alloc s = .ok (n, s') ∧ Took k s s' n ∧
    ∃ s'', k.remove s' n = .ok s'' ∧ k.map s'' = k.map s ∧ k.count s'' = k.count s
  full : k.count s = 0 → k.alloc s = .ok (0xffffffff, s)
  remove : ∀ n, Allocated k s n → ∃ s', k.remove s n = .ok s' ∧ Gave k s s' n

/-- Whatever numbers were given out and taken back, the counter is the number of clear bits, an
allocation returns the number of a clear bit and sets it while there is one, and a removal clears
the bit of its number. -/
theorem allocates {k : Bitmap} {s₀ s : Fs} (h : Balanced k s₀) (hs : Allocs k s₀ s) :
    Allocates k s where
  counts := (h.allocs hs).counts
  alloc hc := by
    obtain ⟨n, s', halloc, ht, hm, -⟩ := (h.allocs hs).alloc hc
    obtain ⟨s'', hremove, hg, -⟩ := remove_ok (k := k) hm ht.isNum
    exact ⟨n, s', halloc, ht, s'', hremove, ht.gave hg⟩
  full := alloc_none
  remove n ha := by
    obtain ⟨s', hremove, hg, -⟩ := remove_ok (k := k) (h.allocs hs).maps ha.1
    exact ⟨s', hremove, hg⟩

theorem allocates_root : ∃ s n s', initRoot (.zero rdSize) = .ok s ∧ allocBlock s = .ok (n, s') ∧
    Allocates .blocks s' ∧ Allocates .inodes s := by
  obtain ⟨s, hrun, hcons, -, -, -, -, hfree, -⟩ := initRoot_spec room_rdSize
  have hb := hcons.balanced .blocks
  have hc : Bitmap.blocks.count s ≠ 0 := by
    show s.gdt.freeBlocksCount ≠ 0
    rw [hfree]
    decide
  obtain ⟨n, s', halloc, -⟩ := hb.alloc hc
  exact ⟨s, n, s', hrun, halloc, allocates hb (.alloc .start halloc),
    allocates (hcons.balanced .inodes) .start⟩

end OsWorkbench.Ext2
