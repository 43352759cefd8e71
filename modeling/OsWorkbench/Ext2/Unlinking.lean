import OsWorkbench.Ext2.Removing

/-!
# The directory after a removal

In an owned volume the search stops at the first entry with the name, or at a cleared slot that has
the name still. The directory loses the entry exactly when the buffer is written to the block that
it came from, and then the volume stays owned.
-/

namespace OsWorkbench.Ext2

/-- The first entry of the directory with the name. -/
def Vol.lookup (v : Vol) (i : UInt32) (name : CStr) : Option Entry :=
  (entries v (v.inode i)).find? fun e => e.name = name

/-! ## Slots and entries -/

theorem slot_eq_some {b : Block} {j : Nat} {e : Entry} :
    slot b j = some e ↔ dirInode b j ≠ 0 ∧ e = ⟨dirName b j, dirInode b j, dirMode b j⟩ := by
  unfold slot
  split
  next hzero => simp [hzero]
  next hlive => simp [hlive, eq_comm]

theorem mem_blockEntries {b : Block} {e : Entry} :
    e ∈ blockEntries b ↔ ∃ j, j < dirAmut ∧ slot b j = some e := by
  simp [blockEntries]

theorem mem_entries {v : Vol} {x : Inode} {e : Entry} :
    e ∈ entries v x ↔ ∃ k, k < x.blocks.toNat ∧ e ∈ blockEntries (v.block (x.blk k)) := by
  simp [entries]

/-- The entries in front of a slot, and those behind it. -/
theorem blockEntries_split {b : Block} {j : Nat} {e : Entry} (hj : j < dirAmut)
    (h : slot b j = some e) :
    ∃ post, blockEntries b = (List.range j).filterMap (slot b) ++ e :: post := by
  rw [blockEntries, range_split hj, List.filterMap_append, List.filterMap_cons_some h]
  exact ⟨_, rfl⟩

theorem entries_split {v : Vol} {x : Inode} {k : Nat} (hk : k < x.blocks.toNat) :
    ∃ post, entries v x = (List.range k).flatMap (fun k => blockEntries (v.block (x.blk k))) ++
      (blockEntries (v.block (x.blk k)) ++ post) := by
  rw [entries, range_split hk, List.flatMap_append, List.flatMap_cons]
  exact ⟨_, rfl⟩

section Lookup

variable {s : Fs} {root ridx idx : UInt32} {name : CStr} {k j : Nat} {e : Entry}

theorem Consistent.blockAt (h : Consistent s) (hr : s.dev.vol.Live ridx)
    (hk : k < (s.dev.vol.inode ridx).blocks.toNat) :
    s.dev.blockAt ((s.dev.vol.inode ridx).blk k) =
      s.dev.vol.block ((s.dev.vol.inode ridx).blk k) :=
  (Device.block_of_isBlock ((h.sound.blocks hr).isBlock k hk)).symm

theorem of_lookup {v : Vol} {i : UInt32} (h : v.lookup i name = some e) :
    e ∈ entries v (v.inode i) ∧ e.name = name :=
  ⟨List.mem_of_find?_eq_some h, by simpa using List.find?_some h⟩

theorem kid_of_lookup {v : Vol} {i : UInt32} (h : v.lookup i name = some e) (hname : ¬IsDot name) :
    e ∈ v.kids i := by
  obtain ⟨hmem, rfl⟩ := of_lookup h
  exact Vol.mem_kids.mpr ⟨hmem, hname⟩

/-- In front of the slot no entry has the name. -/
theorem Passed.ne_name (h : Consistent s) (ho : s.dev.vol.Owned root) (hr : s.dev.vol.Dir ridx)
    (hname : ¬IsDot name) (hk : k < (s.dev.vol.inode ridx).blocks.toNat)
    (hp : Passed (s.dev.vol.block ((s.dev.vol.inode ridx).blk k)) name)
    (he : e ∈ blockEntries (s.dev.vol.block ((s.dev.vol.inode ridx).blk k))) : e.name ≠ name := by
  obtain ⟨j, hj, hslot⟩ := mem_blockEntries.mp he
  obtain ⟨-, rfl⟩ := slot_eq_some.mp hslot
  obtain hall | ⟨j', hfirst, hidx⟩ := hp
  · exact (hall j hj).2
  · -- an entry with the inode -1 is not one of an owned directory
    have hlive : dirInode (s.dev.vol.block ((s.dev.vol.inode ridx).blk k)) j' ≠ 0 := by
      rw [hidx]
      decide
    have hkid : _ ∈ s.dev.vol.kids ridx := Vol.mem_kids.mpr ⟨mem_entries.mpr ⟨k, hk,
      mem_blockEntries.mpr ⟨j', hfirst.lt, slot_of_ne hlive⟩⟩, by rwa [hfirst.named]⟩
    have hinode := (ho.live hr hkid).1.1
    rw [show Entry.ridx _ = 0xffffffff from hidx] at hinode
    exact absurd hinode (by decide)

/-- The search stops at the first entry with the name. -/
theorem ListedAt.lookup (h : Consistent s) (ho : s.dev.vol.Owned root) (hr : s.dev.vol.Dir ridx)
    (hname : ¬IsDot name) (hl : ListedAt s.dev (s.dev.inodeAt ridx) name k j idx) (h0 : idx ≠ 0) :
    ∃ mode, s.dev.vol.lookup ridx name = some ⟨name, idx, mode⟩ ∧
      slot (s.dev.vol.block ((s.dev.vol.inode ridx).blk k)) j = some ⟨name, idx, mode⟩ := by
  rw [← Device.inode_of_isInode hr.1.1] at hl
  have hk := hl.lt
  have hfirst := hl.first
  have hinode := hl.inode
  rw [h.blockAt hr.1 hk] at hfirst hinode
  have hslot := slot_of_ne (hinode ▸ h0)
  rw [hfirst.named, hinode] at hslot
  generalize dirMode (s.dev.vol.block ((s.dev.vol.inode ridx).blk k)) j = mode at hslot
  obtain ⟨post, hblock⟩ := blockEntries_split hfirst.lt hslot
  obtain ⟨post', hentries⟩ := entries_split (v := s.dev.vol) hk
  rw [hblock, List.append_assoc, List.cons_append, ← List.append_assoc] at hentries
  refine ⟨mode, ?_, hslot⟩
  rw [Vol.lookup, List.find?_eq_some_iff_append]
  refine ⟨by simp, _, _, hentries, fun a ha => ?_⟩
  rcases List.mem_append.mp ha with ha | ha
  · obtain ⟨k', hk', hmem⟩ := List.mem_flatMap.mp ha
    have hk' := List.mem_range.mp hk'
    have hpassed := (hl.before k' hk').2
    rw [h.blockAt hr.1 (hk'.trans hk)] at hpassed
    simpa using hpassed.ne_name h ho hr hname (hk'.trans hk) hmem
  · obtain ⟨j', hj', hslot'⟩ := List.mem_filterMap.mp ha
    obtain ⟨-, rfl⟩ := slot_eq_some.mp hslot'
    simpa using (hfirst.before j' (List.mem_range.mp hj')).2

end Lookup

/-! ## Clearing a slot -/

section Clear

variable {b : Block} {j : Nat} {e : Entry}

theorem sameElse_clear (b : Block) (j : Nat) : SameElse b (setDirInode b j 0) j := by
  intro p hp
  unfold dirSize at hp
  rw [setDirInode, Bytes.get_put32_other _ _ (by unfold dirSize; omega)]

theorem dirInode_clear (b : Block) (hj : j < dirAmut) : dirInode (setDirInode b j 0) j = 0 :=
  Bytes.get32_put32 _ _ (by unfold dirSize dirAmut at *; omega)

theorem terminated_clear (h : Terminated b) (hj : j < dirAmut) :
    Terminated (setDirInode b j 0) := by
  intro k hk hlive
  have hkj : k ≠ j := by
    rintro rfl
    exact hlive (dirInode_clear b hk)
  have hsame := sameElse_clear b j
  rw [hsame.dirInode hkj] at hlive
  rw [hsame.dirName hkj hk (h k hk hlive)]
  exact h k hk hlive

/-- Clearing a slot takes its entry away. -/
theorem inserted_clear (h : Terminated b) (hj : j < dirAmut) (hslot : slot b j = some e) :
    Inserted (blockEntries (setDirInode b j 0)) (blockEntries b) e := by
  have hback : SameElse (setDirInode b j 0) b j := fun p hp => (sameElse_clear b j p hp).symm
  exact hback.inserted (terminated_clear h hj) hj (dirInode_clear b hj) hslot

end Clear

/-! ## The directory -/

/-- The state in which slot `j` of block `k` of the directory `ridx` holds the entry `e`, and the
state after its removal. -/
structure Unlinks (s s' : Fs) (ridx : UInt32) (e : Entry) (mode : UInt32) (k j : Nat) : Prop where
  dropped : Dropped s s' ridx e.ridx mode k j
  dir : s.dev.vol.Dir ridx
  kid : e ∈ s.dev.vol.kids ridx
  live : s.dev.vol.Live e.ridx
  ne : ridx ≠ e.ridx
  lt : k < (s.dev.vol.inode ridx).blocks.toNat
  slotLt : j < dirAmut
  slot : slot (s.dev.vol.block ((s.dev.vol.inode ridx).blk k)) j = some e

/-- The buffer is written to the block that it came from. -/
def Lands (v : Vol) (ridx idx mode : UInt32) (k : Nat) : Prop :=
  ((v.inode idx).emptied mode).blk k = (v.inode ridx).blk k

instance (v : Vol) (ridx idx mode : UInt32) (k : Nat) : Decidable (Lands v ridx idx mode k) :=
  inferInstanceAs (Decidable (_ = _))

/-- For a directory whose entry is in the first block the buffer goes to the block of the removed
directory. -/
theorem not_lands_dir {s : Fs} {ridx idx mode : UInt32} (h : Consistent s)
    (hr : s.dev.vol.Live ridx) (hi : s.dev.vol.Live idx) (hne : ridx ≠ idx)
    (hmode : has mode typeDir = true) (hr0 : 0 < (s.dev.vol.inode ridx).blocks.toNat)
    (hi0 : 0 < (s.dev.vol.inode idx).blocks.toNat) : ¬Lands s.dev.vol ridx idx mode 0 := by
  unfold Lands Inode.emptied
  rw [if_pos hmode]
  exact fun he => hne (h.sound.own hi hr hi0 hr0 he).1.symm

namespace Unlinks

variable {s s' : Fs} {ridx mode root : UInt32} {e : Entry} {k j : Nat}

theorem inode_dir (hu : Unlinks s s' ridx e mode k j) : s'.dev.vol.inode ridx =
    { s.dev.vol.inode ridx with size := (s.dev.vol.inode ridx).size - .ofNat dirSize } := by
  rw [hu.dropped.inode]
  exact Function.update_self ..

theorem inode_other (hu : Unlinks s s' ridx e mode k j) {i : UInt32} (hr : i ≠ ridx)
    (hi : i ≠ e.ridx) : s'.dev.vol.inode i = s.dev.vol.inode i := by
  rw [hu.dropped.inode, Function.update_of_ne hr, Function.update_of_ne hi]

/-- The block that the buffer is written to is the only one that changes. -/
theorem block_other (hu : Unlinks s s' ridx e mode k j) {b : UInt32}
    (hb : b ≠ ((s.dev.vol.inode e.ridx).emptied mode).blk k) :
    s'.dev.vol.block b = s.dev.vol.block b := by
  rw [hu.dropped.block, Function.update_of_ne hb]

theorem block_self (hu : Unlinks s s' ridx e mode k j) :
    s'.dev.vol.block (((s.dev.vol.inode e.ridx).emptied mode).blk k) =
      setDirInode (s.dev.vol.block ((s.dev.vol.inode ridx).blk k)) j 0 := by
  rw [hu.dropped.block, Function.update_self]

/-- The names in the blocks of the directory still end inside of their entries. -/
theorem names (hu : Unlinks s s' ridx e mode k j) (h : Consistent s) {l : Nat}
    (hl : l < (s'.dev.vol.inode ridx).blocks.toNat) :
    Terminated (s'.dev.vol.block ((s'.dev.vol.inode ridx).blk l)) := by
  rw [hu.inode_dir] at hl ⊢
  show Terminated (s'.dev.vol.block ((s.dev.vol.inode ridx).blk l))
  rcases eq_or_ne ((s.dev.vol.inode ridx).blk l)
    (((s.dev.vol.inode e.ridx).emptied mode).blk k) with he | hne
  · rw [he, hu.block_self]
    exact terminated_clear (h.sound.names hu.dir.1 hu.dir.2 hu.lt) hu.slotLt
  · rw [hu.block_other hne]
    exact h.sound.names hu.dir.1 hu.dir.2 hl

theorem lists (hu : Unlinks s s' ridx e mode k j) (h : Consistent s) :
    Lists s' ridx (entries s'.dev.vol (s'.dev.vol.inode ridx)) := by
  refine lists_entries hu.dropped.room hu.dir.1.1 ?_ fun l hl => hu.names h hl
  rw [hu.inode_dir]
  have hblocks := h.sound.blocks hu.dir.1
  exact ⟨hblocks.le, hblocks.isBlock⟩

/-- The directory has the blocks that it had. -/
theorem entries_dir (hu : Unlinks s s' ridx e mode k j) :
    entries s'.dev.vol (s'.dev.vol.inode ridx) = entries s'.dev.vol (s.dev.vol.inode ridx) := by
  rw [hu.inode_dir]
  rfl

/-- The directory loses the entry, if the buffer lands in its block. -/
theorem inserted (hu : Unlinks s s' ridx e mode k j) (h : Consistent s)
    (hlands : Lands s.dev.vol ridx e.ridx mode k) :
    Inserted (entries s'.dev.vol (s'.dev.vol.inode ridx))
      (entries s.dev.vol (s.dev.vol.inode ridx)) e := by
  rw [hu.entries_dir]
  refine Inserted.flatMap hu.lt ?_ fun l hl hne => ?_
  · have hself := hu.block_self
    rw [hlands] at hself
    rw [hself]
    exact inserted_clear (h.sound.names hu.dir.1 hu.dir.2 hu.lt) hu.slotLt hu.slot
  · rw [hu.block_other]
    intro he
    exact hne (h.sound.own hu.dir.1 hu.dir.1 hl hu.lt (he.trans hlands)).2

/-- It keeps the entry, if the buffer lands elsewhere. -/
theorem mem_of_not_lands (hu : Unlinks s s' ridx e mode k j)
    (hlands : ¬Lands s.dev.vol ridx e.ridx mode k) :
    e ∈ entries s'.dev.vol (s'.dev.vol.inode ridx) := by
  rw [hu.entries_dir, mem_entries]
  refine ⟨k, hu.lt, ?_⟩
  rw [hu.block_other (Ne.symm hlands)]
  exact mem_blockEntries.mpr ⟨j, hu.slotLt, hu.slot⟩

theorem blocks_eq (hu : Unlinks s s' ridx e mode k j) {i : UInt32} (hi : i ≠ e.ridx) :
    (s'.dev.vol.inode i).blocks = (s.dev.vol.inode i).blocks := by
  rcases eq_or_ne i ridx with rfl | hr
  · rw [hu.inode_dir]
  · rw [hu.inode_other hr hi]

theorem blk_eq (hu : Unlinks s s' ridx e mode k j) {i : UInt32} (hi : i ≠ e.ridx) (l : Nat) :
    (s'.dev.vol.inode i).blk l = (s.dev.vol.inode i).blk l := by
  rcases eq_or_ne i ridx with rfl | hr
  · rw [hu.inode_dir]
    rfl
  · rw [hu.inode_other hr hi]

theorem mode_eq (hu : Unlinks s s' ridx e mode k j) {i : UInt32} (hi : i ≠ e.ridx) :
    (s'.dev.vol.inode i).mode = (s.dev.vol.inode i).mode := by
  rcases eq_or_ne i ridx with rfl | hr
  · rw [hu.inode_dir]
  · rw [hu.inode_other hr hi]

theorem live_iff (hu : Unlinks s s' ridx e mode k j) {i : UInt32} :
    s'.dev.vol.Live i ↔ s.dev.vol.Live i ∧ i ≠ e.ridx := by
  rw [Vol.Live, hu.dropped.inodeMap, Bool.and_eq_true, decide_eq_true_eq, ← and_assoc, Vol.Live]
  refine and_congr_right fun hi => not_congr ⟨fun he => ?_, fun he => by rw [he]⟩
  have hi1 := hi.1.1
  have hidx1 := hu.live.1.1
  exact UInt32.toNat_inj.mp (by omega)

theorem dir_iff (hu : Unlinks s s' ridx e mode k j) {i : UInt32} :
    s'.dev.vol.Dir i ↔ s.dev.vol.Dir i ∧ i ≠ e.ridx := by
  rw [Vol.Dir, hu.live_iff, Vol.Dir]
  constructor
  · rintro ⟨⟨hi, hne⟩, hd⟩
    rw [hu.mode_eq hne] at hd
    exact ⟨⟨hi, hd⟩, hne⟩
  · rintro ⟨⟨hi, hd⟩, hne⟩
    rw [hu.mode_eq hne]
    exact ⟨⟨hi, hne⟩, hd⟩

/-- The other files keep the bytes of their blocks. -/
theorem content (hu : Unlinks s s' ridx e mode k j) (h : Consistent s)
    (hlands : Lands s.dev.vol ridx e.ridx mode k) {i : UInt32} {l : Nat} (hi : s.dev.vol.Live i)
    (hr : i ≠ ridx) (hl : l < (s.dev.vol.inode i).blocks.toNat) :
    s'.dev.vol.block ((s.dev.vol.inode i).blk l) = s.dev.vol.block ((s.dev.vol.inode i).blk l) :=
  hu.block_other fun he => hr (h.sound.own hi hu.dir.1 hl hu.lt (he.trans hlands)).1

theorem entries_other (hu : Unlinks s s' ridx e mode k j) (h : Consistent s)
    (hlands : Lands s.dev.vol ridx e.ridx mode k) {i : UInt32} (hi : s.dev.vol.Live i)
    (hr : i ≠ ridx) (hne : i ≠ e.ridx) :
    entries s'.dev.vol (s'.dev.vol.inode i) = entries s.dev.vol (s.dev.vol.inode i) := by
  rw [hu.inode_other hr hne]
  exact List.flatMap_congr fun l hl => by
    rw [hu.content h hlands hi hr (List.mem_range.mp hl)]

/-- A removal that lands keeps the volume sound. -/
theorem sound (hu : Unlinks s s' ridx e mode k j) (h : Consistent s)
    (hlands : Lands s.dev.vol ridx e.ridx mode k) : s'.dev.vol.Sound where
  blocks {i} hi := by
    obtain ⟨hi, hne⟩ := hu.live_iff.mp hi
    have hblocks := h.sound.blocks hi
    refine ⟨by rw [hu.blocks_eq hne]; exact hblocks.le, fun l hl => ?_⟩
    rw [hu.blocks_eq hne] at hl
    rw [hu.blk_eq hne]
    exact hblocks.isBlock l hl
  marked {i l} hi hl := by
    obtain ⟨hi, hne⟩ := hu.live_iff.mp hi
    rw [hu.blocks_eq hne] at hl
    rw [hu.blk_eq hne, hu.dropped.bits]
    exact ⟨h.sound.marked hi hl, fun m hm he =>
      hne (h.sound.own hi hu.live hl hm (UInt32.toNat_inj.mp he.symm)).1⟩
  own {i i' l l'} hi hi' hl hl' he := by
    obtain ⟨hi, hne⟩ := hu.live_iff.mp hi
    obtain ⟨hi', hne'⟩ := hu.live_iff.mp hi'
    rw [hu.blocks_eq hne] at hl
    rw [hu.blocks_eq hne'] at hl'
    rw [hu.blk_eq hne, hu.blk_eq hne'] at he
    exact h.sound.own hi hi' hl hl' he
  size {i} hi hd := by
    obtain ⟨hi, hne⟩ := hu.live_iff.mp hi
    rcases eq_or_ne i ridx with rfl | hr
    · obtain ⟨pre, post, hnew, hold⟩ := hu.inserted h hlands
      have hsize := h.sound.size hu.dir.1 hu.dir.2
      rw [hold, List.length_append, List.length_cons] at hsize
      have hsub : ((s.dev.vol.inode i).size - UInt32.ofNat dirSize).toNat =
          (s.dev.vol.inode i).size.toNat - dirSize := by
        refine UInt32.toNat_sub_of_le _ _ (UInt32.le_iff_toNat_le.mpr ?_)
        rw [hsize, show (UInt32.ofNat dirSize).toNat = dirSize from rfl]
        unfold dirSize
        omega
      rw [hnew, List.length_append, hu.inode_dir]
      refine hsub.trans ?_
      unfold dirSize at *
      omega
    · rw [hu.entries_other h hlands hi hr hne, hu.inode_other hr hne]
      rw [hu.mode_eq hne] at hd
      exact h.sound.size hi hd
  names {i l} hi hd hl := by
    obtain ⟨hi, hne⟩ := hu.live_iff.mp hi
    rcases eq_or_ne i ridx with rfl | hr
    · exact hu.names h hl
    · rw [hu.mode_eq hne] at hd
      rw [hu.inode_other hr hne] at hl ⊢
      rw [hu.content h hlands hi hr hl]
      exact h.sound.names hi hd hl

theorem consistent (hu : Unlinks s s' ridx e mode k j) (h : Consistent s)
    (hlands : Lands s.dev.vol ridx e.ridx mode k) : Consistent s' where
  room := hu.dropped.room
  sound := hu.sound h hlands
  lastBlock := by
    rw [hu.dropped.lastBlock]
    exact h.lastBlock
  lastInode := by
    rw [hu.dropped.lastInode]
    exact h.lastInode
  freeBlocks := hu.dropped.counts
  freeInodes := by
    rw [hu.dropped.freeInodes]
    exact h.freeInodes.give hu.live.2 hu.dropped.inodeMap

theorem kids_other (hu : Unlinks s s' ridx e mode k j) (h : Consistent s)
    (hlands : Lands s.dev.vol ridx e.ridx mode k) {i : UInt32} (hi : s.dev.vol.Live i)
    (hr : i ≠ ridx) (hne : i ≠ e.ridx) : s'.dev.vol.kids i = s.dev.vol.kids i := by
  rw [Vol.kids, hu.entries_other h hlands hi hr hne, Vol.kids]

theorem kids_dir (hu : Unlinks s s' ridx e mode k j) (h : Consistent s)
    (hlands : Lands s.dev.vol ridx e.ridx mode k) :
    (s.dev.vol.kids ridx).Perm (e :: s'.dev.vol.kids ridx) := by
  obtain ⟨pre, post, hnew, hold⟩ := hu.inserted h hlands
  have hname := (Vol.mem_kids.mp hu.kid).2
  rw [Vol.kids, hold, List.filter_append, List.filter_cons_of_pos (by simpa using hname), Vol.kids,
    hnew, List.filter_append]
  exact List.perm_middle

/-- The entries of the directories are the old ones but for the removed one. -/
theorem mem_kids_iff (hu : Unlinks s s' ridx e mode k j) (h : Consistent s)
    (hlands : Lands s.dev.vol ridx e.ridx mode k) (ho : s.dev.vol.Owned root)
    (hempty : s.dev.vol.Dir e.ridx → s.dev.vol.kids e.ridx = []) {d : UInt32} {a : Entry} :
    s'.dev.vol.Dir d ∧ a ∈ s'.dev.vol.kids d ↔
      s.dev.vol.Dir d ∧ a ∈ s.dev.vol.kids d ∧ a.ridx ≠ e.ridx := by
  have hperm := hu.kids_dir h hlands
  have hnodup := ho.once hu.dir
  rw [(hperm.map Entry.ridx).nodup_iff, List.map_cons, List.nodup_cons] at hnodup
  rw [hu.dir_iff]
  constructor
  · rintro ⟨⟨hd, hne⟩, ha⟩
    rcases eq_or_ne d ridx with rfl | hr
    · refine ⟨hd, hperm.mem_iff.mpr (List.mem_cons_of_mem _ ha), fun he => ?_⟩
      exact hnodup.1 (he ▸ List.mem_map_of_mem ha)
    · rw [hu.kids_other h hlands hd.1 hr hne] at ha
      exact ⟨hd, ha, fun he => hr (ho.one hd hu.dir ha hu.kid he)⟩
  · rintro ⟨hd, ha, hne⟩
    have hdne : d ≠ e.ridx := by
      rintro rfl
      rw [hempty hd] at ha
      exact List.not_mem_nil ha
    refine ⟨⟨hd, hdne⟩, ?_⟩
    rcases eq_or_ne d ridx with rfl | hr
    · rcases List.mem_cons.mp (hperm.mem_iff.mp ha) with rfl | ha
      · exact absurd rfl hne
      · exact ha
    · rwa [hu.kids_other h hlands hd.1 hr hdne]

/-- Removing a file or an empty directory keeps the volume owned, if the buffer lands. -/
theorem owned (hu : Unlinks s s' ridx e mode k j) (h : Consistent s)
    (hlands : Lands s.dev.vol ridx e.ridx mode k) (ho : s.dev.vol.Owned root)
    (hempty : s.dev.vol.Dir e.ridx → s.dev.vol.kids e.ridx = []) : s'.dev.vol.Owned root := by
  have hkids : ∀ {d a}, s'.dev.vol.Dir d → a ∈ s'.dev.vol.kids d →
      s.dev.vol.Dir d ∧ a ∈ s.dev.vol.kids d ∧ a.ridx ≠ e.ridx :=
    fun hd ha => (hu.mem_kids_iff h hlands ho hempty).mp ⟨hd, ha⟩
  have hperm := hu.kids_dir h hlands
  exact {
    rootDir := hu.dir_iff.mpr ⟨ho.rootDir, (ho.live hu.dir hu.kid).2.symm⟩
    live := fun hd ha => by
      obtain ⟨hd, ha, hne⟩ := hkids hd ha
      obtain ⟨hlive, hroot⟩ := ho.live hd ha
      exact ⟨hu.live_iff.mpr ⟨hlive, hne⟩, hroot⟩
    mode := fun hd ha => by
      obtain ⟨hd, ha, hne⟩ := hkids hd ha
      rw [hu.mode_eq hne]
      exact ho.mode hd ha
    once := fun {d} hd => by
      obtain ⟨hd, hne⟩ := hu.dir_iff.mp hd
      rcases eq_or_ne d ridx with rfl | hr
      · have hnodup := ho.once hd
        rw [(hperm.map Entry.ridx).nodup_iff, List.map_cons, List.nodup_cons] at hnodup
        exact hnodup.2
      · rw [hu.kids_other h hlands hd.1 hr hne]
        exact ho.once hd
    one := fun hd hd' ha ha' he => by
      obtain ⟨hd, ha, -⟩ := hkids hd ha
      obtain ⟨hd', ha', -⟩ := hkids hd' ha'
      exact ho.one hd hd' ha ha' he
    below := fun {i} hi => by
      obtain ⟨hi, hne⟩ := hu.live_iff.mp hi
      have hi := ho.below hi
      -- an inode below the removed one would be an entry of it
      induction hi with
      | root => exact .root
      | @kid d a _ hd ha ih =>
        obtain ⟨hd', ha'⟩ := (hu.mem_kids_iff h hlands ho hempty).mpr ⟨hd, ha, hne⟩
        exact .kid (ih hd'.1 hd.1 (hu.dir_iff.mp hd').2) hd' ha'
    dots := fun {d} hd => by
      obtain ⟨hd, hne⟩ := hu.dir_iff.mp hd
      have hdots := ho.dots hd
      rcases eq_or_ne d ridx with rfl | hr
      · obtain ⟨pre, post, hnew, hold⟩ := hu.inserted h hlands
        rw [hperm.length_eq, hold, List.length_append, List.length_cons, List.length_cons] at hdots
        rw [hnew, List.length_append]
        omega
      · rw [hu.entries_other h hlands hd.1 hr hne, hu.kids_other h hlands hd.1 hr hne]
        exact hdots
    used := fun {l} hl => by
      obtain ⟨hl, hnone⟩ := (hu.dropped.bits l).mp hl
      obtain ⟨i, m, hi, hm, hblk⟩ := ho.used hl
      have hne : i ≠ e.ridx := by
        rintro rfl
        exact hnone m hm hblk
      refine ⟨i, m, hu.live_iff.mpr ⟨hi, hne⟩, ?_⟩
      rw [hu.blocks_eq hne, hu.blk_eq hne]
      exact ⟨hm, hblk⟩
    numbers := fun i => by
      rcases eq_or_ne i e.ridx with rfl | hne
      · rw [hu.dropped.inode, Function.update_of_ne hu.ne.symm, Function.update_self]
        exact (ho.numbers _).emptied mode
      · intro l
        rw [hu.blk_eq hne]
        exact ho.numbers i l }

end Unlinks

end OsWorkbench.Ext2
