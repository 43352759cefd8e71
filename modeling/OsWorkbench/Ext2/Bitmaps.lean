import OsWorkbench.Ext2.Volume
import OsWorkbench.Lib.Bitmap

/-!
# The allocators

`ext2_alloc_block` and `ext2_alloc_inode` find a clear bit, from the byte of the last
number they gave out and around, and set it. Inode `i` is bit `i - 1`.
-/

namespace OsWorkbench.Ext2

/-! ## Finding a bit -/

/-- The number of bytes from `cur` around to `c`. -/
def ahead (cur c : Nat) : Nat := if cur ≤ c then c - cur else c + blkSize - cur

theorem scanByte_spec {m : Block} {c : Nat} (hc : c < blkSize) (hm : m.get c ≠ 0xff) {n cur : Nat}
    (hcur : cur < blkSize) (hn : ahead cur c < n) :
    ∃ c', c' < blkSize ∧ m.get c' ≠ 0xff ∧ scanByte m n cur = .ok c' := by
  induction n generalizing cur with
  | zero => exact absurd hn (Nat.not_lt_zero _)
  | succ n ih =>
    rw [scanByte, inBounds_bind hcur]
    by_cases hfull : m.get cur = 0xff
    · have hne : cur ≠ c := by
        rintro rfl
        exact hm hfull
      rw [if_pos hfull]
      apply ih
      · split_ifs <;> unfold blkSize at * <;> omega
      · unfold ahead blkSize at *
        split_ifs at * <;> omega
    · exact ⟨cur, hcur, hfull, by rw [if_neg hfull]; rfl⟩

/-- The bit that the second loop of an allocator finds, and the byte with it. -/
theorem scanBit_spec : ∀ n, n < 255 → (scanBit (.ofNat n) 8 0x80 0).2 < 8 ∧
    n.testBit (7 - (scanBit (.ofNat n) 8 0x80 0).2) = false ∧
    ∀ g, g < 8 → (UInt8.ofNat (n + (scanBit (.ofNat n) 8 0x80 0).1)).toNat.testBit (7 - g) =
      (n.testBit (7 - g) || decide (g = (scanBit (.ofNat n) 8 0x80 0).2)) := by
  decide +kernel

/-- A bit is taken from a map that has one. -/
theorem takeBit_spec {m : Block} {cur : Nat} (hcur : cur < blkSize)
    (hm : ∃ k, k < 8 * 512 ∧ m.bit k = false) :
    ∃ m' k, takeBit m cur = .ok (m', k) ∧ k < 8 * 512 ∧ m.bit k = false ∧
      ∀ l, m'.bit l = (m.bit l || decide (l = k)) := by
  obtain ⟨k, hk, hclear⟩ := hm
  have hbyte : m.get (k / 8) ≠ 0xff := by
    intro hfull
    rw [Bytes.bit, hfull] at hclear
    have hones : ∀ g, g < 8 → (0xff : UInt8).toNat.testBit (7 - g) = true := by decide
    rw [hones _ (Nat.mod_lt _ (by decide))] at hclear
    cases hclear
  obtain ⟨c, hc, hne, hscan⟩ := scanByte_spec (n := blkSize) (c := k / 8)
    (by unfold blkSize; omega) hbyte hcur (by unfold ahead blkSize at *; split_ifs <;> omega)
  have hlt : (m.get c).toNat < 255 := by
    have h256 := (m.get c).toNat_lt
    have h255 : (m.get c).toNat ≠ 255 := fun he => hne (UInt8.toNat_inj.mp he)
    omega
  obtain ⟨hf, hbit, hset⟩ := scanBit_spec _ hlt
  rw [UInt8.ofNat_toNat] at hf hbit hset
  have hsize : c < 512 := hc
  refine ⟨_, _, by rw [takeBit, hscan, ok_bind]; rfl, by omega, ?_, ?_⟩
  · rw [Bytes.bit]
    rwa [show (c * 8 + (scanBit (m.get c) 8 0x80 0).2) / 8 = c by omega,
      show (c * 8 + (scanBit (m.get c) 8 0x80 0).2) % 8 = (scanBit (m.get c) 8 0x80 0).2 by omega]
  · exact Bytes.bit_set_insert hsize hf hset

theorem scanByte_ne {m : Block} {n cur c : Nat} (h : scanByte m n cur = .ok c) :
    c < blkSize ∧ m.get c ≠ 0xff := by
  induction n generalizing cur with
  | zero => cases h
  | succ n ih =>
    obtain ⟨_, hcur, h⟩ := bind_eq_ok.mp h
    have hlt := inBounds_eq_ok.mp hcur
    by_cases hfull : m.get cur = 0xff
    · rw [if_pos hfull] at h
      exact ih h
    · rw [if_neg hfull] at h
      cases h
      exact ⟨hlt, hfull⟩

/-- A search that ends finds a clear bit. -/
theorem exists_clear_of_takeBit {m : Block} {cur : Nat} {r : Block × Nat}
    (h : takeBit m cur = .ok r) : ∃ k, k < 8 * 512 ∧ m.bit k = false := by
  obtain ⟨c, hscan, -⟩ := bind_eq_ok.mp h
  obtain ⟨hc, hne⟩ := scanByte_ne hscan
  have hc512 : c < 512 := hc
  have hlt : (m.get c).toNat < 255 := by
    have h256 := (m.get c).toNat_lt
    have h255 : (m.get c).toNat ≠ 255 := fun he => hne (UInt8.toNat_inj.mp he)
    omega
  obtain ⟨hf, hbit, -⟩ := scanBit_spec _ hlt
  rw [UInt8.ofNat_toNat] at hf hbit
  refine ⟨c * 8 + (scanBit (m.get c) 8 0x80 0).2, by omega, ?_⟩
  rw [Bytes.bit]
  rwa [show (c * 8 + (scanBit (m.get c) 8 0x80 0).2) / 8 = c by omega,
    show (c * 8 + (scanBit (m.get c) 8 0x80 0).2) % 8 = (scanBit (m.get c) 8 0x80 0).2 by omega]

/-- What a search takes when it ends. -/
theorem takeBit_bits {m m' : Block} {cur k : Nat} (hcur : cur < blkSize)
    (h : takeBit m cur = .ok (m', k)) :
    k < 8 * 512 ∧ m.bit k = false ∧ ∀ l, m'.bit l = (m.bit l || decide (l = k)) := by
  obtain ⟨m'', k', htake, hk, hclear, hbits⟩ := takeBit_spec hcur (exists_clear_of_takeBit h)
  rw [h] at htake
  cases htake
  exact ⟨hk, hclear, hbits⟩

/-! ## Clearing a bit -/

theorem clearMask_spec : ∀ n, n < 256 → ∀ f, f < 8 → ∀ g, g < 8 →
    (UInt8.ofNat n &&& clearMask f).toNat.testBit (7 - g) =
      (n.testBit (7 - g) && decide (g ≠ f)) := by
  decide +kernel

theorem dropBit_spec {m : Block} {num : UInt32} (h : num.toNat < 8 * 512) :
    ∃ m', dropBit m num = .ok m' ∧ ∀ l, m'.bit l = (m.bit l && decide (l ≠ num.toNat)) := by
  have hdiv : (num / 8).toNat = num.toNat / 8 := by simp
  have hmod : (num % 8).toNat = num.toNat % 8 := by simp
  have hlt : (num / 8).toNat < 512 := by omega
  refine ⟨_, by rw [dropBit]; exact inBounds_bind hlt, fun l => ?_⟩
  have hclear := clearMask_spec (m.get (num / 8).toNat).toNat (UInt8.toNat_lt _) (num % 8).toNat
    (by omega)
  rw [UInt8.ofNat_toNat] at hclear
  rw [Bytes.bit_set_erase hlt (by omega) hclear l]
  congr 1
  exact decide_eq_decide.mpr (by omega)

/-! ## Allocation -/

theorem toNat_pred_inode {i : UInt32} (hi : IsInode i) : (i - 1).toNat = i.toNat - 1 := by
  have hlt := i.toNat_lt
  have hpos := hi.1
  rw [UInt32.toNat_sub]
  show (2 ^ 32 - 1 + i.toNat) % 2 ^ 32 = _
  omega

theorem blockByte_lt {b : UInt32} (hb : IsBlock b) : (b / 8).toNat < blkSize := by
  have hlt : b.toNat < 4096 := hb
  have hdiv : (b / 8).toNat = b.toNat / 8 := by simp
  unfold blkSize
  omega

theorem inodeByte_lt {i : UInt32} (hi : IsInode i) : ((i - 1) / 8).toNat < blkSize := by
  have hle := hi.2
  unfold inodeTableCount at hle
  have hsub := toNat_pred_inode hi
  have hdiv : ((i - 1) / 8).toNat = (i - 1).toNat / 8 := by simp
  unfold blkSize
  omega

/-- The counter of the group descriptor agrees with the map. -/
def Counts (count : UInt16) (m : Block) : Prop := count.toNat + m.used.card = 8 * 512

theorem Counts.exists_clear {count : UInt16} {m : Block} (h : Counts count m) (hc : count ≠ 0) :
    ∃ k, k < 8 * 512 ∧ m.bit k = false := by
  have hpos : count.toNat ≠ 0 := fun h0 => hc (UInt16.toNat_inj.mp h0)
  exact Bytes.exists_clear (by unfold Counts at h; omega)

theorem Counts.take {count : UInt16} {m m' : Block} {k : Nat} (h : Counts count m) (hc : count ≠ 0)
    (hk : k < 8 * 512) (hclear : m.bit k = false)
    (hm : ∀ l, m'.bit l = (m.bit l || decide (l = k))) : Counts (count - 1) m' := by
  have hpos : count.toNat ≠ 0 := fun h0 => hc (UInt16.toNat_inj.mp h0)
  have hcard := Bytes.card_used_insert hk hclear fun l _ => hm l
  have hlt := count.toNat_lt
  have hsub : (count - 1).toNat = count.toNat - 1 := by
    rw [UInt16.toNat_sub]
    show (2 ^ 16 - 1 + count.toNat) % 2 ^ 16 = _
    omega
  unfold Counts at *
  omega

theorem Counts.give {count : UInt16} {m m' : Block} {k : Nat} (h : Counts count m)
    (hset : m.bit k = true) (hm : ∀ l, m'.bit l = (m.bit l && decide (l ≠ k))) :
    Counts (count + 1) m' := by
  have hcard := Bytes.card_used_erase hset fun l _ => hm l
  have hle := Bytes.card_used_le m
  have hadd : (count + 1).toNat = count.toNat + 1 := by
    unfold Counts at h
    rw [UInt16.toNat_add]
    show (count.toNat + 1) % 2 ^ 16 = _
    omega
  unfold Counts at *
  omega

/-- The file system after block `b` was allocated, with the map `m`. -/
def Fs.tookBlock (s : Fs) (b : UInt32) (m : Block) : Fs :=
  let gdt := { s.gdt with freeBlocksCount := s.gdt.freeBlocksCount - 1 }
  { s with
    blockbitmapbuf := m
    lastAllocBlock := b
    gdt := gdt
    dev := (s.dev.putBlockMap m).putGd gdt }

/-- The file system after inode `i` was allocated, with the map `m`. -/
def Fs.tookInode (s : Fs) (i : UInt32) (m : Block) : Fs :=
  let gdt := { s.gdt with freeInodesCount := s.gdt.freeInodesCount - 1 }
  { s with
    inodebitmapbuf := m
    lastAllocInode := i
    gdt := gdt
    dev := (s.dev.putInodeMap m).putGd gdt }

section Allocate

variable {s : Fs}

theorem allocBlock_of_takeBit {m : Block} {k : Nat} (h : s.dev.Maps)
    (hfree : s.gdt.freeBlocksCount ≠ 0)
    (htake : takeBit s.dev.vol.blockMap (s.lastAllocBlock / 8).toNat = .ok (m, k)) :
    allocBlock s = .ok (.ofNat k, s.tookBlock (.ofNat k) m) := by
  rw [allocBlock, if_neg hfree, rdBlockbitmap_ok h, ok_bind]
  simp only [htake, ok_bind]
  rw [wrBlockbitmap_ok, ok_bind, wrGd_ok, ok_bind]
  · rfl
  · exact h
  · exact h

theorem allocInode_of_takeBit {m : Block} {k : Nat} (h : s.dev.Maps)
    (hfree : s.gdt.freeInodesCount ≠ 0)
    (htake : takeBit s.dev.vol.inodeMap ((s.lastAllocInode - 1) / 8).toNat = .ok (m, k)) :
    allocInode s = .ok (.ofNat (k + 1), s.tookInode (.ofNat (k + 1)) m) := by
  rw [allocInode, if_neg hfree, rdInodebitmap_ok h, ok_bind]
  simp only [htake, ok_bind]
  rw [wrInodebitmap_ok, ok_bind, wrGd_ok, ok_bind]
  · rfl
  · exact h
  · exact h

theorem takeBit_of_allocBlock {b : UInt32} {s' : Fs} (h : s.dev.Maps)
    (hfree : s.gdt.freeBlocksCount ≠ 0) (halloc : allocBlock s = .ok (b, s')) :
    ∃ m k, takeBit s.dev.vol.blockMap (s.lastAllocBlock / 8).toNat = .ok (m, k) := by
  rw [allocBlock, if_neg hfree, rdBlockbitmap_ok h, ok_bind] at halloc
  obtain ⟨⟨m, k⟩, htake, -⟩ := bind_eq_ok.mp halloc
  exact ⟨m, k, htake⟩

theorem takeBit_of_allocInode {i : UInt32} {s' : Fs} (h : s.dev.Maps)
    (hfree : s.gdt.freeInodesCount ≠ 0) (halloc : allocInode s = .ok (i, s')) :
    ∃ m k, takeBit s.dev.vol.inodeMap ((s.lastAllocInode - 1) / 8).toNat = .ok (m, k) := by
  rw [allocInode, if_neg hfree, rdInodebitmap_ok h, ok_bind] at halloc
  obtain ⟨⟨m, k⟩, htake, -⟩ := bind_eq_ok.mp halloc
  exact ⟨m, k, htake⟩

theorem allocBlock_ok (h : s.dev.Maps) (hfree : s.gdt.freeBlocksCount ≠ 0)
    (hlast : IsBlock s.lastAllocBlock)
    (hm : ∃ k, k < 8 * 512 ∧ s.dev.vol.blockMap.bit k = false) :
    ∃ b m, allocBlock s = .ok (b, s.tookBlock b m) ∧ IsBlock b ∧
      s.dev.vol.blockMap.bit b.toNat = false ∧
      ∀ l, m.bit l = (s.dev.vol.blockMap.bit l || decide (l = b.toNat)) := by
  obtain ⟨m', k, htake, hk, hclear, hbit⟩ := takeBit_spec (blockByte_lt hlast) hm
  have hnat : (UInt32.ofNat k).toNat = k := by
    rw [UInt32.toNat_ofNat']
    omega
  exact ⟨.ofNat k, m', allocBlock_of_takeBit h hfree htake, by unfold IsBlock dataBlockCount; omega,
    by rwa [hnat], by rwa [hnat]⟩

theorem allocInode_ok (h : s.dev.Maps) (hfree : s.gdt.freeInodesCount ≠ 0)
    (hlast : IsInode s.lastAllocInode)
    (hm : ∃ k, k < 8 * 512 ∧ s.dev.vol.inodeMap.bit k = false) :
    ∃ i m, allocInode s = .ok (i, s.tookInode i m) ∧ IsInode i ∧
      s.dev.vol.inodeMap.bit (i.toNat - 1) = false ∧
      ∀ l, m.bit l = (s.dev.vol.inodeMap.bit l || decide (l = i.toNat - 1)) := by
  obtain ⟨m', k, htake, hk, hclear, hbit⟩ := takeBit_spec (inodeByte_lt hlast) hm
  have hnat : (UInt32.ofNat (k + 1)).toNat - 1 = k := by
    rw [UInt32.toNat_ofNat']
    omega
  refine ⟨.ofNat (k + 1), m', allocInode_of_takeBit h hfree htake, ?_, by rwa [hnat], by rwa [hnat]⟩
  unfold IsInode inodeTableCount
  rw [UInt32.toNat_ofNat']
  omega

@[simp] theorem vol_tookBlock (b : UInt32) (m : Block) :
    (s.tookBlock b m).dev.vol =
      { s.dev.vol with
        gd := { s.gdt with freeBlocksCount := s.gdt.freeBlocksCount - 1 }
        blockMap := m } := by
  simp [Fs.tookBlock]

@[simp] theorem vol_tookInode (i : UInt32) (m : Block) :
    (s.tookInode i m).dev.vol =
      { s.dev.vol with
        gd := { s.gdt with freeInodesCount := s.gdt.freeInodesCount - 1 }
        inodeMap := m } := by
  simp [Fs.tookInode]

@[simp] theorem tookBlock_ind (b : UInt32) (m : Block) : (s.tookBlock b m).ind = s.ind := rfl

@[simp] theorem tookBlock_dir (b : UInt32) (m : Block) : (s.tookBlock b m).dir = s.dir := rfl

@[simp] theorem tookInode_ind (i : UInt32) (m : Block) : (s.tookInode i m).ind = s.ind := rfl

@[simp] theorem tookInode_dir (i : UInt32) (m : Block) : (s.tookInode i m).dir = s.dir := rfl

@[simp] theorem room_tookBlock (b : UInt32) (m : Block) :
    (s.tookBlock b m).dev.Room ↔ s.dev.Room := Iff.rfl

@[simp] theorem room_tookInode (i : UInt32) (m : Block) :
    (s.tookInode i m).dev.Room ↔ s.dev.Room := Iff.rfl

end Allocate

/-! ## Removal -/

/-- The file system after a block was given back, with the map `m`. -/
def Fs.gaveBlock (s : Fs) (m : Block) : Fs :=
  let gdt := { s.gdt with freeBlocksCount := s.gdt.freeBlocksCount + 1 }
  { s with
    blockbitmapbuf := m
    gdt := gdt
    dev := (s.dev.putBlockMap m).putGd gdt }

/-- The file system after an inode was given back, with the map `m`. -/
def Fs.gaveInode (s : Fs) (m : Block) : Fs :=
  let gdt := { s.gdt with freeInodesCount := s.gdt.freeInodesCount + 1 }
  { s with
    inodebitmapbuf := m
    gdt := gdt
    dev := (s.dev.putInodeMap m).putGd gdt }

section Remove

variable {s : Fs} {b i : UInt32}

theorem removeBlock_ok (h : s.dev.Maps) (hb : IsBlock b) :
    ∃ m, removeBlock s b = .ok (s.gaveBlock m) ∧
      ∀ l, m.bit l = (s.dev.vol.blockMap.bit l && decide (l ≠ b.toNat)) := by
  obtain ⟨m, hdrop, hm⟩ := dropBit_spec (m := s.dev.vol.blockMap) hb
  refine ⟨m, ?_, hm⟩
  rw [removeBlock, rdBlockbitmap_ok h, ok_bind]
  simp only [hdrop, ok_bind]
  rw [wrBlockbitmap_ok, ok_bind, wrGd_ok]
  · rfl
  · exact h
  · exact h

theorem removeInode_ok (h : s.dev.Maps) (hi : IsInode i) :
    ∃ m, removeInode s i = .ok (s.gaveInode m) ∧
      ∀ l, m.bit l = (s.dev.vol.inodeMap.bit l && decide (l ≠ i.toNat - 1)) := by
  have hlt : (i - 1).toNat < 8 * 512 := by
    have hle := hi.2
    unfold inodeTableCount at hle
    rw [toNat_pred_inode hi]
    omega
  obtain ⟨m, hdrop, hm⟩ := dropBit_spec (m := s.dev.vol.inodeMap) hlt
  rw [toNat_pred_inode hi] at hm
  refine ⟨m, ?_, hm⟩
  rw [removeInode, rdInodebitmap_ok h, ok_bind]
  simp only [hdrop, ok_bind]
  rw [wrInodebitmap_ok, ok_bind, wrGd_ok]
  · rfl
  · exact h
  · exact h

@[simp] theorem vol_gaveBlock (m : Block) :
    (s.gaveBlock m).dev.vol =
      { s.dev.vol with
        gd := { s.gdt with freeBlocksCount := s.gdt.freeBlocksCount + 1 }
        blockMap := m } := by
  simp [Fs.gaveBlock]

@[simp] theorem vol_gaveInode (m : Block) :
    (s.gaveInode m).dev.vol =
      { s.dev.vol with
        gd := { s.gdt with freeInodesCount := s.gdt.freeInodesCount + 1 }
        inodeMap := m } := by
  simp [Fs.gaveInode]

end Remove

end OsWorkbench.Ext2
