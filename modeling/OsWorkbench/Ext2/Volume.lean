import OsWorkbench.Ext2.Model

/-!
# The volume on the device

The abstract content of a device: a group descriptor, two bitmaps, a table of
inodes and an array of data blocks. A write of one of them to the device changes
that component and no other, because the regions of the layout are disjoint.
-/

namespace OsWorkbench.Ext2

/-- An inode number: the table starts with inode 1. -/
def IsInode (i : UInt32) : Prop := 1 ≤ i.toNat ∧ i.toNat ≤ inodeTableCount

/-- A number of a data block. -/
def IsBlock (b : UInt32) : Prop := b.toNat < dataBlockCount

instance (i : UInt32) : Decidable (IsInode i) := inferInstanceAs (Decidable (_ ∧ _))

instance (b : UInt32) : Decidable (IsBlock b) := inferInstanceAs (Decidable (_ < _))

/-- All of the block numbers are in the range, those that are not in use too. -/
def Inode.Numbered (x : Inode) : Prop := ∀ k, IsBlock (x.blk k)

theorem Inode.Numbered.setBlk {x : Inode} {b : UInt32} (h : x.Numbered) (hb : IsBlock b) (k : Nat) :
    (x.setBlk k b).Numbered := by
  intro l
  have hl := h l
  unfold Inode.setBlk Inode.blk at *
  split at hl
  next hlt =>
    rw [dif_pos hlt]
    dsimp only
    split
    · exact hb
    · exact hl
  next hge =>
    rw [dif_neg hge]
    exact hl

/-- What the regions of a device hold. -/
structure Vol where
  gd : GroupDesc
  blockMap : Block
  inodeMap : Block
  inode : UInt32 → Inode
  block : UInt32 → Block

namespace Vol

def setInode (v : Vol) (i : UInt32) (x : Inode) : Vol :=
  { v with inode := Function.update v.inode i x }

def setBlock (v : Vol) (b : UInt32) (x : Block) : Vol :=
  { v with block := Function.update v.block b x }

end Vol

/-- The inode that `ext2_rd_ind` reads. -/
def Device.inodeAt (d : Device) (i : UInt32) : Inode := .decode (load d.data (indOffset i).toNat)

/-- The block that `ext2_rd_datablock` and `ext2_rd_dir` read. -/
def Device.blockAt (d : Device) (b : UInt32) : Block := load d.data (blkOffset b).toNat

def Device.vol (d : Device) : Vol where
  gd := .decode (load d.data gdtStart.toNat)
  blockMap := load d.data blkBitmap.toNat
  inodeMap := load d.data indBitmap.toNat
  inode i := if IsInode i then d.inodeAt i else .zero
  block b := if IsBlock b then d.blockAt b else .zero

/-- The device is large enough for the layout. -/
def Device.Room (d : Device) : Prop := (516 + dataBlockCount) * blkSize ≤ d.size

/-- The device is large enough for the group descriptor and the bitmaps. -/
def Device.Maps (d : Device) : Prop := 4 * blkSize ≤ d.size

/-- A device of zeros. -/
def Device.zero (size : Nat) : Device := ⟨size, fun _ => 0⟩

/-! ## The codecs -/

theorem Inode.get32_encode (v : Inode) {w : Nat} (hw : w < 16) :
    v.encode.get32 (4 * w) = v.word w := by
  refine Bytes.get32_eq fun j hj => ?_
  rw [Bytes.get_of_lt _ (by omega)]
  show byteOf (v.word ((4 * w + j) / 4)).toNat ((4 * w + j) % 4) = _
  rw [show (4 * w + j) / 4 = w by omega, show (4 * w + j) % 4 = j by omega]

theorem Inode.decode_encode (v : Inode) : decode v.encode = v := by
  have hblock (i : Fin 12) : v.encode.get32 (12 + 4 * i.val) = v.block i := by
    have hi := i.isLt
    have h := v.get32_encode (w := i.val + 3) (by omega)
    rw [show 4 * (i.val + 3) = 12 + 4 * i.val by omega] at h
    rw [h]
    exact dif_pos hi
  cases v with
  | mk mode blocks size block pad =>
    show Inode.mk _ _ _ _ _ = _
    rw [Inode.mk.injEq]
    exact ⟨get32_encode _ (w := 0) (by decide), get32_encode _ (w := 1) (by decide),
      get32_encode _ (w := 2) (by decide), funext hblock, get32_encode _ (w := 15) (by decide)⟩

theorem GroupDesc.get16_encode (g : GroupDesc) {w : Nat} (hw : w < 6) :
    g.encode.get16 (16 + 2 * w) = g.half w := by
  refine Bytes.get16_eq fun j hj => ?_
  rw [Bytes.get_of_lt _ (by omega)]
  show (if 16 + 2 * w + j < 16 then _ else if 16 + 2 * w + j < 28 then
    byteOf (g.half ((16 + 2 * w + j - 16) / 2)).toNat ((16 + 2 * w + j) % 2) else _) = _
  rw [if_neg (by omega), if_pos (by omega), show (16 + 2 * w + j - 16) / 2 = w by omega,
    show (16 + 2 * w + j) % 2 = j by omega]

theorem GroupDesc.decode_encode (g : GroupDesc) : decode g.encode = g := by
  have hname (i : Fin 16) : g.encode.get i.val = g.volumeName i := by
    have hi := i.isLt
    rw [Bytes.get_of_lt _ (by omega)]
    show (if i.val < 16 then g.volumeName.get i.val else _) = _
    rw [if_pos hi, Bytes.get_of_lt _ hi]
  have hpad (i : Fin 4) : g.encode.get (28 + i.val) = g.pad i := by
    have hi := i.isLt
    rw [Bytes.get_of_lt _ (by omega)]
    show (if 28 + i.val < 16 then _ else if 28 + i.val < 28 then _ else
      g.pad.get (28 + i.val - 28)) = _
    rw [if_neg (by omega), if_neg (by omega), Nat.add_sub_cancel_left, Bytes.get_of_lt _ hi]
  cases g with
  | mk name a b c d e f pad =>
    show GroupDesc.mk _ _ _ _ _ _ _ _ = _
    rw [GroupDesc.mk.injEq]
    exact ⟨funext hname, get16_encode _ (w := 0) (by decide), get16_encode _ (w := 1) (by decide),
      get16_encode _ (w := 2) (by decide), get16_encode _ (w := 3) (by decide),
      get16_encode _ (w := 4) (by decide), get16_encode _ (w := 5) (by decide), funext hpad⟩

/-! ## The layout -/

theorem toNat_indOffset {i : UInt32} (h : IsInode i) :
    (indOffset i).toNat = 2048 + (i.toNat - 1) * 64 := by
  obtain ⟨h1, h2⟩ := h
  have hle : (1 : UInt32) ≤ i := UInt32.le_iff_toNat_le.mpr h1
  unfold inodeTableCount at h2
  unfold indOffset
  rw [UInt32.toNat_add, UInt32.toNat_mul, UInt32.toNat_sub_of_le _ _ hle]
  show (2048 + (i.toNat - 1) * 64 % 2 ^ 32) % 2 ^ 32 = _
  omega

theorem toNat_blkOffset {b : UInt32} (h : IsBlock b) :
    (blkOffset b).toNat = 264192 + b.toNat * 512 := by
  unfold IsBlock dataBlockCount at h
  unfold blkOffset
  rw [UInt32.toNat_add, UInt32.toNat_mul]
  show (264192 + b.toNat * 512 % 2 ^ 32) % 2 ^ 32 = _
  omega

theorem toNat_gdtStart : gdtStart.toNat = 512 := rfl

theorem toNat_blkBitmap : blkBitmap.toNat = 1024 := rfl

theorem toNat_indBitmap : indBitmap.toNat = 1536 := rfl

namespace Device

variable {d : Device} {i : UInt32} {b : UInt32}

def put {n : Nat} (d : Device) (offset : UInt32) (x : Bytes n) : Device :=
  { d with data := store d.data offset.toNat x }

def putGd (d : Device) (g : GroupDesc) : Device := d.put gdtStart g.encode
def putBlockMap (d : Device) (m : Block) : Device := d.put blkBitmap m
def putInodeMap (d : Device) (m : Block) : Device := d.put indBitmap m
def putInode (d : Device) (i : UInt32) (v : Inode) : Device := d.put (indOffset i) v.encode
def putBlock (d : Device) (b : UInt32) (x : Block) : Device := d.put (blkOffset b) x

@[simp] theorem room_putGd (g : GroupDesc) : (d.putGd g).Room ↔ d.Room := Iff.rfl
@[simp] theorem room_putBlockMap (m : Block) : (d.putBlockMap m).Room ↔ d.Room := Iff.rfl
@[simp] theorem room_putInodeMap (m : Block) : (d.putInodeMap m).Room ↔ d.Room := Iff.rfl
@[simp] theorem room_putInode (v : Inode) : (d.putInode i v).Room ↔ d.Room := Iff.rfl
@[simp] theorem room_putBlock (x : Block) : (d.putBlock b x).Room ↔ d.Room := Iff.rfl

theorem inode_of_isInode (h : IsInode i) : d.vol.inode i = d.inodeAt i := if_pos h

theorem block_of_isBlock (h : IsBlock b) : d.vol.block b = d.blockAt b := if_pos h

/-- The loads that make up a volume, after a write to a region. -/
theorem vol_put {n : Nat} {offset : UInt32} {x : Bytes n} {v : Vol}
    (hgd : .decode (load (d.put offset x).data 512) = v.gd)
    (hbm : load (d.put offset x).data 1024 = v.blockMap)
    (him : load (d.put offset x).data 1536 = v.inodeMap)
    (hinode : ∀ i, (d.put offset x).vol.inode i = v.inode i)
    (hblock : ∀ b, (d.put offset x).vol.block b = v.block b) : (d.put offset x).vol = v := by
  cases v with
  | mk gd bm im inode block =>
    show Vol.mk _ _ _ _ _ = _
    rw [Vol.mk.injEq]
    exact ⟨hgd, hbm, him, funext hinode, funext hblock⟩

/-- A write below the inode table keeps every inode. -/
theorem inode_put_low {n : Nat} {offset : UInt32} (x : Bytes n) (h : offset.toNat + n ≤ 2048)
    (i : UInt32) : (d.put offset x).vol.inode i = d.vol.inode i := by
  refine ite_congr rfl (fun hi => ?_) fun _ => rfl
  have hoff := toNat_indOffset hi
  exact congrArg Inode.decode (load_store_disjoint _ _ (by omega))

/-- A write below the data blocks keeps every block. -/
theorem block_put_low {n : Nat} {offset : UInt32} (x : Bytes n) (h : offset.toNat + n ≤ 264192)
    (b : UInt32) : (d.put offset x).vol.block b = d.vol.block b := by
  refine ite_congr rfl (fun hb => ?_) fun _ => rfl
  have hoff := toNat_blkOffset hb
  exact load_store_disjoint _ _ (by omega)

@[simp] theorem vol_putGd (g : GroupDesc) : (d.putGd g).vol = { d.vol with gd := g } := by
  have h := toNat_gdtStart
  refine vol_put ?_ ?_ ?_ (inode_put_low _ (by omega)) (block_put_low _ (by omega))
  · exact (congrArg GroupDesc.decode (load_store d.data 512 g.encode)).trans g.decode_encode
  · exact load_store_disjoint _ _ (by omega)
  · exact load_store_disjoint _ _ (by omega)

@[simp] theorem vol_putBlockMap (m : Block) :
    (d.putBlockMap m).vol = { d.vol with blockMap := m } := by
  have h := toNat_blkBitmap
  refine vol_put ?_ ?_ ?_ (inode_put_low _ (by omega)) (block_put_low _ (by omega))
  · exact congrArg GroupDesc.decode (load_store_disjoint _ _ (by omega))
  · exact load_store d.data 1024 m
  · exact load_store_disjoint _ _ (by omega)

@[simp] theorem vol_putInodeMap (m : Block) :
    (d.putInodeMap m).vol = { d.vol with inodeMap := m } := by
  have h := toNat_indBitmap
  refine vol_put ?_ ?_ ?_ (inode_put_low _ (by omega)) (block_put_low _ (by omega))
  · exact congrArg GroupDesc.decode (load_store_disjoint _ _ (by omega))
  · exact load_store_disjoint _ _ (by omega)
  · exact load_store d.data 1536 m

theorem vol_putInode (hi : IsInode i) (v : Inode) :
    (d.putInode i v).vol = d.vol.setInode i v := by
  have h := toNat_indOffset hi
  have hle := hi.2
  unfold inodeTableCount at hle
  refine vol_put ?_ ?_ ?_ (fun k => ?_) (block_put_low _ (by omega))
  · exact congrArg GroupDesc.decode (load_store_disjoint _ _ (by omega))
  · exact load_store_disjoint _ _ (by omega)
  · exact load_store_disjoint _ _ (by omega)
  · rcases eq_or_ne k i with rfl | hne
    · show _ = Function.update d.vol.inode k v k
      rw [Function.update_self, inode_of_isInode hi]
      exact (congrArg Inode.decode (load_store _ _ _)).trans v.decode_encode
    · show _ = Function.update d.vol.inode i v k
      rw [Function.update_of_ne hne]
      refine ite_congr rfl (fun hk => ?_) fun _ => rfl
      have hk' := toNat_indOffset hk
      have hkne : k.toNat ≠ i.toNat := fun he => hne (UInt32.toNat_inj.mp he)
      have hk1 := hk.1
      have hi1 := hi.1
      exact congrArg Inode.decode (load_store_disjoint _ _ (by omega))

theorem vol_putBlock (hb : IsBlock b) (x : Block) :
    (d.putBlock b x).vol = d.vol.setBlock b x := by
  have h := toNat_blkOffset hb
  refine vol_put ?_ ?_ ?_ (fun k => ?_) (fun k => ?_)
  · exact congrArg GroupDesc.decode (load_store_disjoint _ _ (by omega))
  · exact load_store_disjoint _ _ (by omega)
  · exact load_store_disjoint _ _ (by omega)
  · refine ite_congr rfl (fun hk => ?_) fun _ => rfl
    have hk' := toNat_indOffset hk
    have hle := hk.2
    unfold inodeTableCount at hle
    exact congrArg Inode.decode (load_store_disjoint _ _ (by omega))
  · rcases eq_or_ne k b with rfl | hne
    · show _ = Function.update d.vol.block k x k
      rw [Function.update_self, block_of_isBlock hb]
      exact load_store _ _ _
    · show _ = Function.update d.vol.block b x k
      rw [Function.update_of_ne hne]
      refine ite_congr rfl (fun hk => ?_) fun _ => rfl
      have hk' := toNat_blkOffset hk
      have hkne : k.toNat ≠ b.toNat := fun he => hne (UInt32.toNat_inj.mp he)
      exact load_store_disjoint _ _ (by omega)

end Device

/-! ## Reads and writes -/

section Access

variable {s : Fs} {i b : UInt32}

theorem rdRead_ok {n : Nat} {dev : Device} {offset : UInt32} (h : offset.toNat + n ≤ dev.size) :
    (rdRead dev offset : Except Fault (Bytes n)) = .ok (load dev.data offset.toNat) :=
  inBounds_bind h

theorem rdWrite_ok {n : Nat} {dev : Device} {offset : UInt32} {x : Bytes n}
    (h : offset.toNat + n ≤ dev.size) : rdWrite dev offset x = .ok (dev.put offset x) :=
  inBounds_bind h

theorem Device.Room.le (h : s.dev.Room) : 2361344 ≤ s.dev.size := h

theorem Device.Maps.le (h : s.dev.Maps) : 2048 ≤ s.dev.size := h

theorem Device.Room.maps {d : Device} (h : d.Room) : d.Maps :=
  le_trans (by decide : 4 * blkSize ≤ (516 + dataBlockCount) * blkSize) h

theorem rdGd_ok (h : s.dev.Maps) : rdGd s = .ok { s with gdt := s.dev.vol.gd } := by
  have := h.le
  unfold rdGd
  rw [rdRead_ok (by rw [toNat_gdtStart]; omega)]
  rfl

theorem wrGd_ok (h : s.dev.Maps) : wrGd s = .ok { s with dev := s.dev.putGd s.gdt } := by
  have := h.le
  unfold wrGd
  rw [rdWrite_ok (by rw [toNat_gdtStart]; omega)]
  rfl

theorem rdBlockbitmap_ok (h : s.dev.Maps) :
    rdBlockbitmap s = .ok { s with blockbitmapbuf := s.dev.vol.blockMap } := by
  have := h.le
  unfold rdBlockbitmap
  rw [rdRead_ok (by rw [toNat_blkBitmap]; omega)]
  rfl

theorem wrBlockbitmap_ok (h : s.dev.Maps) :
    wrBlockbitmap s = .ok { s with dev := s.dev.putBlockMap s.blockbitmapbuf } := by
  have := h.le
  unfold wrBlockbitmap
  rw [rdWrite_ok (by rw [toNat_blkBitmap]; omega)]
  rfl

theorem rdInodebitmap_ok (h : s.dev.Maps) :
    rdInodebitmap s = .ok { s with inodebitmapbuf := s.dev.vol.inodeMap } := by
  have := h.le
  unfold rdInodebitmap
  rw [rdRead_ok (by rw [toNat_indBitmap]; omega)]
  rfl

theorem wrInodebitmap_ok (h : s.dev.Maps) :
    wrInodebitmap s = .ok { s with dev := s.dev.putInodeMap s.inodebitmapbuf } := by
  have := h.le
  unfold wrInodebitmap
  rw [rdWrite_ok (by rw [toNat_indBitmap]; omega)]
  rfl

theorem indOffset_le (h : s.dev.Room) (hi : IsInode i) : (indOffset i).toNat + 64 ≤ s.dev.size := by
  have hle := hi.2
  unfold inodeTableCount at hle
  have := h.le
  rw [toNat_indOffset hi]
  omega

theorem blkOffset_le (h : s.dev.Room) (hb : IsBlock b) :
    (blkOffset b).toNat + 512 ≤ s.dev.size := by
  have := h.le
  rw [toNat_blkOffset hb]
  unfold IsBlock dataBlockCount at hb
  omega

theorem rdInd_ok (h : s.dev.Room) (hi : IsInode i) :
    rdInd s i = .ok { s with ind := s.dev.vol.inode i } := by
  unfold rdInd
  rw [rdRead_ok (indOffset_le h hi), Device.inode_of_isInode hi]
  rfl

theorem wrInd_ok (h : s.dev.Room) (hi : IsInode i) :
    wrInd s i = .ok { s with dev := s.dev.putInode i s.ind } := by
  unfold wrInd
  rw [rdWrite_ok (indOffset_le h hi)]
  rfl

theorem rdDir_ok (h : s.dev.Room) (hb : IsBlock b) :
    rdDir s b = .ok { s with dir := s.dev.vol.block b } := by
  unfold rdDir
  rw [rdRead_ok (blkOffset_le h hb), Device.block_of_isBlock hb]
  rfl

theorem wrDir_ok (h : s.dev.Room) (hb : IsBlock b) :
    wrDir s b = .ok { s with dev := s.dev.putBlock b s.dir } := by
  unfold wrDir
  rw [rdWrite_ok (blkOffset_le h hb)]
  rfl

theorem rdDatablock_ok (h : s.dev.Room) (hb : IsBlock b) :
    rdDatablock s b = .ok { s with datablockbuf := s.dev.vol.block b } := by
  unfold rdDatablock
  rw [rdRead_ok (blkOffset_le h hb), Device.block_of_isBlock hb]
  rfl

theorem wrDatablock_ok (h : s.dev.Room) (hb : IsBlock b) :
    wrDatablock s b = .ok { s with dev := s.dev.putBlock b s.datablockbuf } := by
  unfold wrDatablock
  rw [rdWrite_ok (blkOffset_le h hb)]
  rfl

end Access

/-! ## Calls that write nothing -/

theorem rdDir_dev {d d' : Fs} {b : UInt32} (h : rdDir d b = .ok d') : d'.dev = d.dev := by
  obtain ⟨_, -, h⟩ := bind_eq_ok.mp h
  cases h
  rfl

theorem rdInd_dev {d d' : Fs} {b : UInt32} (h : rdInd d b = .ok d') : d'.dev = d.dev := by
  obtain ⟨_, -, h⟩ := bind_eq_ok.mp h
  cases h
  rfl

theorem readdirBlocks_dev {kth n i cnt : Nat} {d d' : Fs} {e : Option Entry}
    (h : readdirBlocks kth n i cnt d = .ok (e, d')) : d'.dev = d.dev := by
  induction n generalizing i cnt d with
  | zero =>
    cases h
    rfl
  | succ n ih =>
    simp only [readdirBlocks] at h
    obtain ⟨_, -, h⟩ := bind_eq_ok.mp h
    obtain ⟨d₁, hd, h⟩ := bind_eq_ok.mp h
    rw [← rdDir_dev hd]
    split at h
    · obtain ⟨_, -, h⟩ := bind_eq_ok.mp h
      cases h
      rfl
    · exact ih h

/-- What `ext2_readdir` finds depends on the image and on nothing else. -/
theorem readdirBlocks_congr {kth n i cnt : Nat} {d d' x : Fs} {e : Option Entry}
    (hdev : d'.dev = d.dev) (hind : d'.ind = d.ind) (h : readdirBlocks kth n i cnt d = .ok (e, x)) :
    ∃ x', readdirBlocks kth n i cnt d' = .ok (e, x') := by
  induction n generalizing i cnt d d' with
  | zero =>
    cases h
    exact ⟨d', rfl⟩
  | succ n ih =>
    simp only [readdirBlocks] at h ⊢
    obtain ⟨u, hu, h⟩ := bind_eq_ok.mp h
    obtain ⟨d₁, hd₁, h⟩ := bind_eq_ok.mp h
    obtain ⟨b, hb, hd₁⟩ := bind_eq_ok.mp hd₁
    cases hd₁
    have hd' : rdDir d' (d'.ind.blk i) = .ok { d' with dir := b } := by
      rw [rdDir, hdev, hind, hb]
      rfl
    rw [hu, ok_bind, hd', ok_bind]
    dsimp only at h ⊢
    cases hr : (readdirScan b kth (List.range dirAmut) cnt).2 with
    | some k =>
      rw [hr] at h
      obtain ⟨u', hu', h⟩ := bind_eq_ok.mp h
      cases h
      exact ⟨_, bind_eq_ok.mpr ⟨u', hu', rfl⟩⟩
    | none =>
      rw [hr] at h
      exact ih (show ({ d' with dir := b } : Fs).dev = ({ d with dir := b } : Fs).dev from hdev)
        (show ({ d' with dir := b } : Fs).ind = ({ d with dir := b } : Fs).ind from hind) h

theorem readdir_congr {kth : Nat} {ridx : UInt32} {d d' x : Fs} {e : Option Entry}
    (hdev : d'.dev = d.dev) (h : readdir d ridx kth = .ok (e, x)) :
    ∃ x', readdir d' ridx kth = .ok (e, x') := by
  obtain ⟨d₁, hd₁, h⟩ := bind_eq_ok.mp h
  obtain ⟨b, hb, hd₁⟩ := bind_eq_ok.mp hd₁
  cases hd₁
  have hd' : rdInd d' ridx = .ok { d' with ind := .decode b } := by
    rw [rdInd, hdev, hb]
    rfl
  rw [readdir, hd', ok_bind]
  exact readdirBlocks_congr
    (show ({ d' with ind := .decode b } : Fs).dev =
        ({ d with ind := .decode b } : Fs).dev from hdev)
    rfl h

/-- The search loads blocks into the buffer `dir`, and does nothing else. -/
theorem searchName_frame {name : CStr} {n i : Nat} {d d' : Fs} {r : Option (Nat × Nat)}
    (h : searchName name n i d = .ok (r, d')) : d' = { d with dir := d'.dir } := by
  induction n generalizing i d with
  | zero =>
    cases h
    rfl
  | succ n ih =>
    simp only [searchName] at h
    obtain ⟨_, -, h⟩ := bind_eq_ok.mp h
    obtain ⟨d₁, hd, h⟩ := bind_eq_ok.mp h
    obtain ⟨_, -, hd⟩ := bind_eq_ok.mp hd
    cases hd
    obtain ⟨found, -, h⟩ := bind_eq_ok.mp h
    split at h
    · split at h
      · have hframe := ih h
        exact hframe
      · cases h
        rfl
    · have hframe := ih h
      exact hframe

theorem dropEntry_zero {d d' : Fs} {ridx : UInt32} {i j r : Nat}
    (h : dropEntry d ridx i j = .ok (r, d')) : r = 0 := by
  simp only [dropEntry, bind_eq_ok] at h
  obtain ⟨_, -, _, -, _, -, _, -, _, -, _, -, h⟩ := h
  cases h
  rfl

/-- A refused removal changes two buffers. -/
theorem remove_refused_frame {d d' : Fs} {ridx mode : UInt32} {name : CStr} {r : Nat}
    (h : remove d ridx name mode = .ok (r, d')) (hr : r ≠ 0) :
    d' = { d with ind := d'.ind, dir := d'.dir } := by
  simp only [remove] at h
  obtain ⟨d₁, hd₁, h⟩ := bind_eq_ok.mp h
  obtain ⟨_, -, hd₁⟩ := bind_eq_ok.mp hd₁
  cases hd₁
  obtain ⟨⟨found, d₂⟩, hd₂, h⟩ := bind_eq_ok.mp h
  have hframe := searchName_frame hd₂
  cases found with
  | none =>
    cases h
    rw [hframe]
  | some ij =>
    obtain ⟨d₃, hd₃, h⟩ := bind_eq_ok.mp h
    obtain ⟨_, -, hd₃⟩ := bind_eq_ok.mp hd₃
    cases hd₃
    split at h
    · split at h
      · obtain ⟨_, -, h⟩ := bind_eq_ok.mp h
        obtain ⟨_, -, h⟩ := bind_eq_ok.mp h
        exact absurd (dropEntry_zero h) hr
      · cases h
        rw [hframe]
    · obtain ⟨_, -, h⟩ := bind_eq_ok.mp h
      exact absurd (dropEntry_zero h) hr

/-- A refused removal leaves the image as it is. -/
theorem remove_refused {d d' : Fs} {ridx mode : UInt32} {name : CStr} {r : Nat}
    (h : remove d ridx name mode = .ok (r, d')) (hr : r ≠ 0) : d'.dev = d.dev := by
  rw [remove_refused_frame h hr]

end OsWorkbench.Ext2
