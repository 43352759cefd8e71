import OsWorkbench.Ext2.Unlinking

/-!
# Runs of the file system

The states that `ext2_create`, `ext2_write` and `ext2_remove` reach from a new file system. A
removal is right exactly when the search finds the entry and not a cleared slot, an empty directory
has one block, and the buffer is written to the block that it came from.
-/

namespace OsWorkbench.Ext2

/-! ## What a removal is for -/

/-- A file, or a directory without entries but for the first two. -/
def Deletable (v : Vol) (e : Entry) : Prop := v.Dir e.ridx → v.kids e.ridx = []

/-- The directory lost the entry `e`, the inode and the blocks of `e` are free, and every block but
the one of the entry is as it was. -/
structure Removed (s s' : Fs) (ridx : UInt32) (e : Entry) : Prop where
  lists : Lists s' ridx ((entries s.dev.vol (s.dev.vol.inode ridx)).erase e)
  inode : ∀ l, s'.dev.vol.inodeMap.bit l =
    (s.dev.vol.inodeMap.bit l && decide (l ≠ e.ridx.toNat - 1))
  blocks : ∀ l, s'.dev.vol.blockMap.bit l = true ↔ s.dev.vol.blockMap.bit l = true ∧
    ∀ m, m < (s.dev.vol.inode e.ridx).blocks.toNat → ((s.dev.vol.inode e.ridx).blk m).toNat ≠ l
  freeInodes : s'.gdt.freeInodesCount.toNat = s.gdt.freeInodesCount.toNat + 1
  freeBlocks : s'.gdt.freeBlocksCount.toNat =
    s.gdt.freeBlocksCount.toNat + (s.dev.vol.inode e.ridx).blocks.toNat
  others : ∃ k, k < (s.dev.vol.inode ridx).blocks.toNat ∧
    ∀ b, b ≠ (s.dev.vol.inode ridx).blk k → s'.dev.vol.block b = s.dev.vol.block b

/-- `ext2_remove` removes the first entry with the name, if it is a file or an empty directory, and
otherwise it returns an error and changes neither the image nor the counters. -/
structure RemovesRight (s : Fs) (ridx : UInt32) (name : CStr) (mode : UInt32) : Prop where
  removes : ∀ e, s.dev.vol.lookup ridx name = some e → Deletable s.dev.vol e →
    ∃ s', remove s ridx name mode = .ok (0, s') ∧ Removed s s' ridx e
  refuses : (∀ e, s.dev.vol.lookup ridx name = some e → ¬Deletable s.dev.vol e) →
    ∃ r s', r ≠ 0 ∧ remove s ridx name mode = .ok (r, s') ∧ s'.dev = s.dev ∧ s'.gdt = s.gdt

/-- The search finds the inode, which has one block if it is a directory, and its number in place
of the block of the slot is the number of that block. -/
def Removable (s : Fs) (ridx : UInt32) (name : CStr) (mode idx : UInt32) : Prop :=
  ∃ k j, ListedAt s.dev (s.dev.inodeAt ridx) name k j idx ∧
    (has mode typeDir = true → (s.dev.vol.inode idx).blocks = 1) ∧ Lands s.dev.vol ridx idx mode k

/-- The condition for a right removal, or a right refusal. -/
def RemovalFits (s : Fs) (ridx : UInt32) (name : CStr) (mode : UInt32) : Prop :=
  (∀ e, s.dev.vol.lookup ridx name = some e → Deletable s.dev.vol e →
    Removable s ridx name mode e.ridx) ∧
  ((∀ e, s.dev.vol.lookup ridx name = some e → ¬Deletable s.dev.vol e) →
    Refused s.dev ridx name mode)

section Exact

variable {s s' : Fs} {root ridx mode : UInt32} {name : CStr} {e : Entry} {k j : Nat}

/-- The entry is in the directory once. -/
theorem count_kid {v : Vol} (ho : v.Owned root) (hd : v.Dir ridx) (he : e ∈ v.kids ridx) :
    (entries v (v.inode ridx)).count e = 1 := by
  have hname := (Vol.mem_kids.mp he).2
  have hfilter : (v.kids ridx).count e = (entries v (v.inode ridx)).count e :=
    List.count_filter (by simpa using hname)
  rw [← hfilter]
  exact List.count_eq_one_of_mem (ho.once hd).of_map he

theorem Inserted.erase_eq {l l' : List Entry} (h : Inserted l l' e) (hcount : l'.count e = 1) :
    l'.erase e = l := by
  obtain ⟨pre, post, rfl, rfl⟩ := h
  rw [List.count_append, List.count_cons_self] at hcount
  have hpre : e ∉ pre := List.count_eq_zero.mp (by omega)
  rw [List.erase_append_right _ hpre, List.erase_cons_head]

/-- An empty directory has the size of its first two entries. -/
theorem Deletable.size (h : Consistent s) (ho : s.dev.vol.Owned root)
    (hdel : Deletable s.dev.vol e) (hd : s.dev.vol.Dir e.ridx) :
    (s.dev.vol.inode e.ridx).size = .ofNat (2 * dirSize) := by
  have hsize := h.sound.size hd.1 hd.2
  rw [ho.dots hd, hdel hd] at hsize
  exact UInt32.toNat_inj.mp hsize

theorem Deletable.ne (hd : s.dev.vol.Dir ridx) (he : e ∈ s.dev.vol.kids ridx)
    (hdel : Deletable s.dev.vol e) : ridx ≠ e.ridx := by
  rintro rfl
  rw [hdel hd] at he
  exact List.not_mem_nil he

/-- A removal whose search finds the entry. -/
theorem unlinks (h : Consistent s) (ho : s.dev.vol.Owned root) (hd : s.dev.vol.Dir ridx)
    (hname : ¬IsDot name) (hfind : s.dev.vol.lookup ridx name = some e)
    (hdel : Deletable s.dev.vol e) (hl : ListedAt s.dev (s.dev.inodeAt ridx) name k j e.ridx)
    (hempty : has mode typeDir = true → (s.dev.vol.inode e.ridx).size = .ofNat (2 * dirSize) ∧
      (s.dev.vol.inode e.ridx).blocks = 1) :
    ∃ s', remove s ridx name mode = .ok (0, s') ∧ Unlinks s s' ridx e mode k j := by
  have he := kid_of_lookup hfind hname
  obtain ⟨hlive, -⟩ := ho.live hd he
  have hne := hdel.ne hd he
  obtain ⟨m, hfind', hslot⟩ := hl.lookup h ho hd hname hlive.1.ne_zero
  rw [hfind] at hfind'
  have hlt := hl.lt
  rw [← Device.inode_of_isInode hd.1.1] at hlt
  obtain ⟨s', hrun, hdrop⟩ := remove_live h hd.1 hlive hne (ho.numbers _) hl hempty
  exact ⟨s', hrun, hdrop, hd, he, hlive, hne, hlt, hl.first.lt, by rw [hslot, ← hfind']⟩

namespace Unlinks

theorem removed (hu : Unlinks s s' ridx e mode k j) (h : Consistent s)
    (ho : s.dev.vol.Owned root) (hlands : Lands s.dev.vol ridx e.ridx mode k) :
    Removed s s' ridx e where
  lists := by
    rw [(hu.inserted h hlands).erase_eq (count_kid ho hu.dir hu.kid)]
    exact hu.lists h
  inode := hu.dropped.inodeMap
  blocks := hu.dropped.bits
  freeInodes := by
    rw [hu.dropped.freeInodes]
    exact h.freeInodes.toNat_succ
  freeBlocks := hu.dropped.freeBlocks
  others := ⟨k, hu.lt, fun b hb => hu.block_other fun he => hb (he.trans hlands)⟩

/-- The listing tells whether the buffer landed. -/
theorem lands_of_lists (hu : Unlinks s s' ridx e mode k j) (h : Consistent s) {es : List Entry}
    (hlists : Lists s' ridx es) (hes : e ∉ es) : Lands s.dev.vol ridx e.ridx mode k := by
  by_contra hlands
  refine hes ?_
  rw [hlists.unique (hu.lists h)]
  exact hu.mem_of_not_lands hlands

end Unlinks

/-- A removal that succeeds found the entry. -/
theorem found_of_remove (h : Consistent s) (ho : s.dev.vol.Owned root) (hd : s.dev.vol.Dir ridx)
    (hname : ¬IsDot name) (hfind : s.dev.vol.lookup ridx name = some e)
    (hdel : Deletable s.dev.vol e) (hrun : remove s ridx name mode = .ok (0, s')) :
    ∃ k j, ListedAt s.dev (s.dev.inodeAt ridx) name k j e.ridx ∧
      (has mode typeDir = true → (s.dev.vol.inode e.ridx).blocks = 1) ∧
      Unlinks s s' ridx e mode k j := by
  obtain ⟨k, j, idx, hl, h0, hempty⟩ := of_remove hrun
  obtain ⟨m, hfind', -⟩ := hl.lookup h ho hd hname h0
  rw [hfind] at hfind'
  cases hfind'
  have hlive := (ho.live hd (kid_of_lookup hfind hname)).1
  rw [← Device.inode_of_isInode hlive.1] at hempty
  obtain ⟨s'', hrun', hu⟩ := unlinks h ho hd hname hfind hdel hl hempty
  rw [hrun] at hrun'
  cases hrun'
  exact ⟨k, j, hl, fun hm => (hempty hm).2, hu⟩

/-- The exact condition, in every owned volume. -/
theorem removesRight_iff (h : Consistent s) (ho : s.dev.vol.Owned root) (hd : s.dev.vol.Dir ridx)
    (hname : ¬IsDot name)
    (hmode : ∀ e, s.dev.vol.lookup ridx name = some e → has mode typeDir = has e.mode typeDir) :
    RemovesRight s ridx name mode ↔ RemovalFits s ridx name mode := by
  constructor
  · intro hright
    refine ⟨fun e hfind hdel => ?_, fun hnone => ?_⟩
    · obtain ⟨s', hrun, hrem⟩ := hright.removes e hfind hdel
      obtain ⟨k, j, hl, hone, hu⟩ := found_of_remove h ho hd hname hfind hdel hrun
      refine ⟨k, j, hl, hone, hu.lands_of_lists h hrem.lists ?_⟩
      have hcount := count_kid ho hd hu.kid
      rw [← List.count_eq_zero, List.count_erase_self, hcount]
    · obtain ⟨r, s', hr, hrun, -⟩ := hright.refuses hnone
      exact remove_refused_iff.mp ⟨r, s', hr, hrun⟩
  · rintro ⟨hremoves, hrefuses⟩
    refine ⟨fun e hfind hdel => ?_, fun hnone => ?_⟩
    · obtain ⟨k, j, hl, hone, hlands⟩ := hremoves e hfind hdel
      obtain ⟨s', hrun, hu⟩ := unlinks h ho hd hname hfind hdel hl fun hm => by
        refine ⟨?_, hone hm⟩
        have hkid := kid_of_lookup hfind hname
        rw [hmode e hfind, ← ho.mode hd hkid] at hm
        exact hdel.size h ho ⟨(ho.live hd hkid).1, hm⟩
      exact ⟨s', hrun, hu.removed h ho hlands⟩
    · obtain ⟨r, s', hr, hrun⟩ := remove_refused_iff.mpr (hrefuses hnone)
      have hframe := remove_refused_frame hrun hr
      exact ⟨r, s', hr, hrun, by rw [hframe], by rw [hframe]⟩

end Exact

/-! ## Creating and removing -/

/-- The removal of the new entry takes everything back. -/
def Restores (s s₁ : Fs) (ridx : UInt32) (name : CStr) (mode : UInt32) : Prop :=
  ∃ s₂, remove s₁ ridx name mode = .ok (0, s₂) ∧
    (∀ d, s.dev.vol.Dir d → Lists s₂ d (entries s.dev.vol (s.dev.vol.inode d))) ∧
    s₂.gdt.freeBlocksCount = s.gdt.freeBlocksCount ∧
    s₂.gdt.freeInodesCount = s.gdt.freeInodesCount

theorem Counts.unique {c c' : UInt16} {m : Block} (h : Counts c m) (h' : Counts c' m) : c = c' := by
  unfold Counts at h h'
  exact UInt16.toNat_inj.mp (by omega)

theorem Counts.lt_of_subset {c c' : UInt16} {m m' : Block} (h : Counts c m) (h' : Counts c' m')
    (hsub : ∀ l, m.bit l = true → m'.bit l = true) {l : Nat} (hl : m'.bit l = true)
    (hclear : m.bit l = false) : c'.toNat < c.toNat := by
  have hssub : m.used ⊂ m'.used := by
    refine Finset.ssubset_iff_of_subset (fun k hk => ?_) |>.mpr ⟨l, Bytes.mem_used.mpr hl, ?_⟩
    · exact Bytes.mem_used.mpr (hsub k (Bytes.mem_used.mp hk))
    · rw [Bytes.mem_used, hclear]
      exact Bool.false_ne_true
  have hcard := Finset.card_lt_card hssub
  unfold Counts at h h'
  omega

namespace Steps

variable {s s₁ s₂ s' s'' : Fs} {ridx idx mode root : UInt32} {name : CStr} {k j : Nat}

/-- What was marked is not one of the blocks of the new inode. -/
theorem bit_kept (hs : Steps s s₁ s₂ s' ridx idx name mode) {l : Nat}
    (hl : s.dev.vol.blockMap.bit l = true) : s'.dev.vol.blockMap.bit l = true ∧
      ∀ m, m < (s'.dev.vol.inode idx).blocks.toNat → ((s'.dev.vol.inode idx).blk m).toNat ≠ l := by
  have hbit := hs.entered.kept l hl
  refine ⟨hs.bit_of_bit hbit, ?_⟩
  rintro m hm rfl
  exact Bool.false_ne_true ((hs.fresh hm).symm.trans hbit)

/-- A directory that was not full keeps its blocks. -/
theorem bit_old (hs : Steps s s₁ s₂ s' ridx idx name mode) (h : Consistent s)
    (hr : s.dev.vol.Live ridx) (hfull : ¬s.dev.vol.Full ridx) {l : Nat}
    (hl : s'.dev.vol.blockMap.bit l = true)
    (hne : ∀ m, m < (s'.dev.vol.inode idx).blocks.toNat →
      ((s'.dev.vol.inode idx).blk m).toNat ≠ l) : s.dev.vol.blockMap.bit l = true := by
  obtain hl | ⟨m, hm, he⟩ := (hs.prepared.bits l).mp hl
  · rw [hs.blockMap₂] at hl
    obtain hl | ⟨m, hm, rfl⟩ := hs.entered.taken l hl
    · exact hl
    · have hgrown := hs.grown
      rw [if_neg hfull, Nat.add_zero] at hgrown
      rw [hgrown] at hm
      rw [hs.entered.same m hm]
      exact h.sound.marked hr hm
  · exact absurd he (hne m hm)

/-- A full directory gets a block more. -/
theorem bit_new (hs : Steps s s₁ s₂ s' ridx idx name mode) (h : Consistent s)
    (hc : Creatable s ridx mode) (hfull : s.dev.vol.Full ridx) :
    ∃ l, s.dev.vol.blockMap.bit l = false ∧ s'.dev.vol.blockMap.bit l = true ∧
      ∀ m, m < (s'.dev.vol.inode idx).blocks.toNat →
        ((s'.dev.vol.inode idx).blk m).toNat ≠ l := by
  have hgrown := hs.grown
  rw [if_pos hfull] at hgrown
  have hlt : (s.dev.vol.inode ridx).blocks.toNat < s₁.ind.blocks.toNat := by omega
  have hmark := hs.entered.marked _ hlt
  refine ⟨_, (hs.entered.old _ hlt).resolve_left fun hold => ?_, hs.bit_of_bit hmark, ?_⟩
  · exact absurd hold.1 (lt_irrefl _)
  · intro m hm he
    exact Bool.false_ne_true ((hs.fresh hm).symm.trans (he ▸ hmark))

theorem deletable (hs : Steps s s₁ s₂ s' ridx idx name mode) (hr : s.dev.vol.Live ridx) :
    Deletable s'.dev.vol ⟨name, idx, mode⟩ := by
  intro hd
  obtain hd | ⟨-, hd⟩ := (hs.dir_iff hr).mp hd
  · exact absurd rfl (hs.ne_of_live hd.1)
  · exact hs.kids_new hd

theorem not_mem_old (hs : Steps s s₁ s₂ s' ridx idx name mode) (hr : s.dev.vol.Dir ridx)
    (ho : s.dev.vol.Owned root) (hname : ¬IsDot name) :
    ⟨name, idx, mode⟩ ∉ entries s.dev.vol (s.dev.vol.inode ridx) := fun he =>
  hs.ne_of_live (ho.live hr (Vol.mem_kids.mpr ⟨he, hname⟩)).1 rfl

/-- The search for a new name stops at the new entry. -/
theorem lookup_new (hs : Steps s s₁ s₂ s' ridx idx name mode) (hr : s.dev.vol.Live ridx)
    (hnone : s.dev.vol.lookup ridx name = none) :
    s'.dev.vol.lookup ridx name = some ⟨name, idx, mode⟩ := by
  obtain ⟨pre, post, hold, hnew⟩ := hs.listed hr
  rw [Vol.lookup, hold, List.find?_append, Option.or_eq_none_iff] at hnone
  rw [Vol.lookup, hnew, List.find?_append, hnone.1, Option.none_or]
  exact List.find?_cons_of_pos (by simp)

/-- The listings after the entry was made and removed. -/
theorem lists_removed (hs : Steps s s₁ s₂ s' ridx idx name mode) (h : Consistent s)
    (hc : Creatable s ridx mode) (ho : s'.dev.vol.Owned root)
    (hu : Unlinks s' s'' ridx ⟨name, idx, mode⟩ mode k j)
    (hlands : Lands s'.dev.vol ridx idx mode k) {d : UInt32} (hd : s.dev.vol.Dir d) :
    Lists s'' d (entries s.dev.vol (s.dev.vol.inode d)) := by
  have h' := hs.consistent h hc
  have hcons := hu.consistent h' hlands
  have hd' : s'.dev.vol.Dir d := (hs.dir_iff hc.live).mpr (.inl hd)
  have hne := hs.ne_of_live hd.1
  have hd'' := hu.dir_iff.mpr ⟨hd', hne⟩
  have hentries : entries s''.dev.vol (s''.dev.vol.inode d) =
      entries s.dev.vol (s.dev.vol.inode d) := by
    rcases eq_or_ne d ridx with rfl | hr
    · have hcount := count_kid ho hu.dir hu.kid
      rw [← (hu.inserted h' hlands).erase_eq hcount, (hs.listed hd.1).erase_eq hcount]
    · rw [hu.entries_other h' hlands hd'.1 hr hne, hs.entries_other h hc.live hd.1 hr]
  rw [← hentries]
  exact lists_entries hcons.room hd''.1.1 (hcons.sound.blocks hd''.1) fun l hl =>
    hcons.sound.names hd''.1 hd''.2 hl

/-- Creating and removing an entry takes everything back exactly when the removal is right and the
directory was not full. -/
theorem restores_iff (hs : Steps s s₁ s₂ s' ridx idx name mode) (h : Consistent s)
    (ho : s.dev.vol.Owned root) (hc : Creatable s ridx mode) (hname : ¬IsDot name)
    (hfind : s'.dev.vol.lookup ridx name = some ⟨name, idx, mode⟩) :
    Restores s s' ridx name mode ↔
      ¬s.dev.vol.Full ridx ∧ Removable s' ridx name mode idx := by
  have hr : s.dev.vol.Dir ridx := ⟨hc.live, hc.dir⟩
  have h' := hs.consistent h hc
  have ho' := hs.owned h hc hname ho
  have hr' : s'.dev.vol.Dir ridx := (hs.dir_iff hc.live).mpr (.inl hr)
  have hdel := hs.deletable hc.live
  constructor
  · rintro ⟨s'', hrun, hlists, hblocks, -⟩
    obtain ⟨k, j, hl, hone, hu⟩ := found_of_remove h' ho' hr' hname hfind hdel hrun
    have hlands := hu.lands_of_lists h' (hlists ridx hr) (hs.not_mem_old hr ho hname)
    refine ⟨fun hfull => ?_, k, j, hl, hone, hlands⟩
    obtain ⟨l, hclear, hl, hne⟩ := hs.bit_new h hc hfull
    have hlt := h.freeBlocks.lt_of_subset hu.dropped.counts
      (fun l hl => (hu.dropped.bits l).mpr (hs.bit_kept hl)) ((hu.dropped.bits l).mpr ⟨hl, hne⟩)
      hclear
    rw [hblocks] at hlt
    exact lt_irrefl _ hlt
  · rintro ⟨hfull, k, j, hl, hone, hlands⟩
    obtain ⟨s'', hrun, hu⟩ := unlinks h' ho' hr' hname hfind hdel hl fun hd => by
      exact ⟨(hs.prepared.newDir hd).1, hone hd⟩
    have hcons := hu.consistent h' hlands
    have hblocks : s''.dev.vol.blockMap = s.dev.vol.blockMap := Bytes.ext_bit fun l => by
      rw [Bool.eq_iff_iff, hu.dropped.bits]
      exact ⟨fun ⟨hl, hne⟩ => hs.bit_old h hc.live hfull hl hne, hs.bit_kept⟩
    have hinodes : s''.dev.vol.inodeMap = s.dev.vol.inodeMap := Bytes.ext_bit fun l => by
      rw [hu.dropped.inodeMap, hs.inodeMap]
      by_cases he : l = idx.toNat - 1
      · rw [he, hs.entered.clear]
        simp
      · simp [he]
    exact ⟨s'', hrun, fun d hd => hs.lists_removed h hc ho' hu hlands hd,
      (hblocks ▸ hcons.freeBlocks).unique h.freeBlocks,
      (hinodes ▸ hcons.freeInodes).unique h.freeInodes⟩

end Steps

/-! ## Runs -/

/-- A call of the file system. -/
inductive Call
  | create (ridx : UInt32) (name : CStr) (mode : UInt32)
  | write (ridx : UInt32) (offset : UInt64) (buf : Nat → UInt8) (len : UInt32)
  | remove (ridx : UInt32) (name : CStr) (mode : UInt32)

namespace Call

/-- The state after the call. -/
def run (s : Fs) : Call → Except Fault Fs
  | create ridx name mode => do
    let r ← Ext2.create s ridx name mode
    return r.2
  | write ridx offset buf len => do
    let r ← Ext2.write s ridx offset buf len
    return r.2
  | remove ridx name mode => do
    let r ← Ext2.remove s ridx name mode
    return r.2

/-- There is room for what the call makes, a name of at most 19 bytes, and a removal is refused or
right. -/
def Careful (s : Fs) : Call → Prop
  | create ridx name mode => Creatable s ridx mode ∧ name.length < 20 ∧ ¬IsDot name
  | write ridx offset _ len => s.dev.vol.Live ridx ∧
    (has (s.dev.vol.inode ridx).mode wrAble = false ∨ Roomy s ridx offset.toNat len.toNat)
  | remove ridx name mode => s.dev.vol.Dir ridx ∧ ¬IsDot name ∧
    (Refused s.dev ridx name mode ∨ ∃ e, s.dev.vol.lookup ridx name = some e ∧
      Deletable s.dev.vol e ∧ Removable s ridx name mode e.ridx)

end Call

/-- The states that careful calls reach from a new file system on a device of zeros. -/
inductive Reached (size : Nat) (label : CStr) : Fs → Prop
  | init {s : Fs} : (Device.zero size).Room → label.length < 16 →
      init (.zero size) label = .ok s → Reached size label s
  | call {s s' : Fs} {c : Call} : Reached size label s → c.Careful s → c.run s = .ok s' →
      Reached size label s'

/-- What holds in all of these states. -/
structure Kept (s : Fs) : Prop extends Consistent s where
  owned : s.dev.vol.Owned s.currentDir

section Runs

variable {s : Fs}

theorem Kept.create {ridx mode : UInt32} {name : CStr} (h : Kept s) (hc : Creatable s ridx mode)
    (hlen : name.length < 20) (hname : ¬IsDot name) :
    ∃ idx s', create s ridx name mode = .ok (idx, s') ∧ Kept s' := by
  obtain ⟨idx, s₁, s₂, s', hrun, hs⟩ := h.1.create_ok hc hlen
  refine ⟨idx, s', hrun, hs.consistent h.1 hc, ?_⟩
  have hroot : s'.currentDir = s.currentDir := by
    rw [hs.prepared.root, hs.rest]
    exact hs.entered.root
  rw [hroot]
  exact hs.owned h.1 hc hname h.owned

theorem Kept.write {r len : UInt32} {offset : UInt64} (buf : Nat → UInt8) (h : Kept s)
    (hw : Roomy s r offset.toNat len.toNat) :
    ∃ n s', Ext2.write s r offset buf len = .ok (n, s') ∧ Kept s' := by
  obtain ⟨t, t', hres, hcop, hrun⟩ := hw.write buf h.1 rfl
  have hresizes := resizes h.1 hw rfl hres hcop
  refine ⟨_, _, hrun, hresizes.consistent h.1 hw.live hw.file hres hcop, ?_⟩
  have hroot : (t'.saved r (.ofNat (offset.toNat + len.toNat))).currentDir = s.currentDir := by
    show t'.currentDir = _
    rw [hcop.fs]
    exact hres.root
  rw [hroot]
  exact hresizes.owned hw.live hw.file hres hcop h.owned

/-- A removal that is refused changes two buffers. -/
theorem Kept.refused {ridx mode : UInt32} {name : CStr} (h : Kept s)
    (hr : Refused s.dev ridx name mode) :
    ∃ r s', Ext2.remove s ridx name mode = .ok (r, s') ∧ Kept s' := by
  obtain ⟨r, s', hne, hrun⟩ := remove_refused_iff.mpr hr
  rw [remove_refused_frame hrun hne] at hrun
  exact ⟨r, _, hrun, ⟨h.room, h.sound, h.lastBlock, h.lastInode, h.freeBlocks, h.freeInodes⟩,
    h.owned⟩

theorem Kept.remove {ridx mode : UInt32} {name : CStr} {e : Entry} (h : Kept s)
    (hd : s.dev.vol.Dir ridx) (hname : ¬IsDot name) (hfind : s.dev.vol.lookup ridx name = some e)
    (hdel : Deletable s.dev.vol e) (hr : Removable s ridx name mode e.ridx) :
    ∃ r s', Ext2.remove s ridx name mode = .ok (r, s') ∧ Kept s' := by
  obtain ⟨k, j, hl, hone, hlands⟩ := hr
  by_cases hsize : has mode typeDir = true →
      (s.dev.vol.inode e.ridx).size = .ofNat (2 * dirSize)
  · obtain ⟨s', hrun, hu⟩ := unlinks h.1 h.owned hd hname hfind hdel hl fun hm =>
      ⟨hsize hm, hone hm⟩
    refine ⟨0, s', hrun, hu.consistent h.1 hlands, ?_⟩
    rw [hu.dropped.root]
    exact hu.owned h.1 hlands h.owned hdel
  · push Not at hsize
    have hlive := (h.owned.live hd (kid_of_lookup hfind hname)).1
    refine h.refused ⟨indOffset_le h.room hd.1.1, .inr ⟨hsize.1, k, j, e.ridx, hl,
      indOffset_le h.room hlive.1, ?_⟩⟩
    rw [← Device.inode_of_isInode hlive.1]
    exact hsize.2

/-- A careful call returns and keeps the file system. -/
theorem Call.Careful.run {c : Call} (h : Kept s) (hc : c.Careful s) :
    ∃ s', c.run s = .ok s' ∧ Kept s' := by
  cases c with
  | create ridx name mode =>
    obtain ⟨hcreate, hlen, hname⟩ := hc
    obtain ⟨idx, s', hrun, hkept⟩ := h.create hcreate hlen hname
    exact ⟨s', by rw [Call.run, hrun]; rfl, hkept⟩
  | write ridx offset buf len =>
    obtain ⟨hlive, hnone | hroomy⟩ := hc
    · refine ⟨{ s with ind := s.dev.vol.inode ridx }, ?_, ⟨h.room, h.sound, h.lastBlock,
        h.lastInode, h.freeBlocks, h.freeInodes⟩, h.owned⟩
      rw [Call.run, Ext2.write, rdInd_ok h.room hlive.1, ok_bind, if_pos hnone]
      rfl
    · obtain ⟨n, s', hrun, hkept⟩ := h.write buf hroomy
      exact ⟨s', by rw [Call.run, hrun]; rfl, hkept⟩
  | remove ridx name mode =>
    obtain ⟨hd, hname, hrefused | ⟨e, hfind, hdel, hr⟩⟩ := hc
    · obtain ⟨r, s', hrun, hkept⟩ := h.refused hrefused
      exact ⟨s', by rw [Call.run, hrun]; rfl, hkept⟩
    · obtain ⟨r, s', hrun, hkept⟩ := h.remove hd hname hfind hdel hr
      exact ⟨s', by rw [Call.run, hrun]; rfl, hkept⟩

theorem kept_of_init {size : Nat} {label : CStr} (h : (Device.zero size).Room)
    (hlabel : label.length < 16) (hrun : init (.zero size) label = .ok s) : Kept s := by
  obtain ⟨b₀, b₁, b₂, c₀, c₁, c₂, j₁, j₂, hmade⟩ := of_init h hlabel hrun
  exact ⟨hmade.consistent (clean_zero size) hlabel,
    hmade.owned (clean_zero size) hlabel (numbered_zero size)⟩

theorem Reached.kept {size : Nat} {label : CStr} (h : Reached size label s) : Kept s := by
  induction h with
  | init hroom hlabel hrun => exact kept_of_init hroom hlabel hrun
  | call _ hc hrun ih =>
    obtain ⟨s', hrun', hkept⟩ := hc.run ih
    rw [hrun] at hrun'
    cases hrun'
    exact hkept

end Runs

/-! ## A run on a new file system -/

/-- The entry of a file in a directory of one block, with the number of that block in the inode of
the file after the removal. -/
structure FileEntry (s : Fs) (ridx : UInt32) (name : CStr) (mode : UInt32) (e : Entry) : Prop where
  dir : s.dev.vol.Dir ridx
  found : s.dev.vol.lookup ridx name = some e
  file : has (s.dev.vol.inode e.ridx).mode typeDir = false
  one : (s.dev.vol.inode ridx).blocks = 1
  lands : Lands s.dev.vol ridx e.ridx mode 0

instance (s : Fs) (ridx : UInt32) (name : CStr) (mode : UInt32) (e : Entry) :
    Decidable (FileEntry s ridx name mode e) :=
  decidable_of_iff
    (s.dev.vol.Dir ridx ∧ s.dev.vol.lookup ridx name = some e ∧
      has (s.dev.vol.inode e.ridx).mode typeDir = false ∧ (s.dev.vol.inode ridx).blocks = 1 ∧
      Lands s.dev.vol ridx e.ridx mode 0)
    ⟨fun ⟨hdir, hfound, hfile, hone, hlands⟩ => ⟨hdir, hfound, hfile, hone, hlands⟩,
      fun h => ⟨h.dir, h.found, h.file, h.one, h.lands⟩⟩

namespace FileEntry

variable {s s' : Fs} {ridx mode : UInt32} {name : CStr} {e : Entry}

theorem deletable (hf : FileEntry s ridx name mode e) : Deletable s.dev.vol e := fun hd =>
  absurd (hf.file.symm.trans hd.2) Bool.false_ne_true

theorem removable (hf : FileEntry s ridx name mode e) (h : Kept s) (hname : ¬IsDot name)
    (hrun : remove s ridx name mode = .ok (0, s')) : Removable s ridx name mode e.ridx := by
  obtain ⟨k, j, hl, hone, hu⟩ :=
    found_of_remove h.1 h.owned hf.dir hname hf.found hf.deletable hrun
  obtain rfl : k = 0 := by
    have hlt := hu.lt
    rw [hf.one] at hlt
    exact Nat.lt_one_iff.mp hlt
  exact ⟨0, j, hl, hone, hf.lands⟩

end FileEntry

/-- The mode of a directory that can be read and written. -/
def folderMode : UInt32 := typeDir ||| rdAble ||| wrAble

set_option maxRecDepth 100000 in
/-- The directory `d` is made, `hello.cpp` gets 513 bytes, and the other file is removed. Then
`hello.cpp` could be removed, and the file `a` made and removed. -/
theorem reached_calls : ∃ s s₁ s₂ s₃ idx,
    Reached rdSize (.lit "ramdisk1") s ∧ s.dev.vol.lookup 1 (.lit "ramdisk1.txt") = none ∧
      remove s 1 (.lit "hello.cpp") fileMode = .ok (0, s₁) ∧
      FileEntry s 1 (.lit "hello.cpp") fileMode ⟨.lit "hello.cpp", 2, fileMode⟩ ∧
      Creatable s 1 fileMode ∧ ¬s.dev.vol.Full 1 ∧ s.dev.vol.lookup 1 (.lit "a") = none ∧
      create s 1 (.lit "a") fileMode = .ok (idx, s₂) ∧
      remove s₂ 1 (.lit "a") fileMode = .ok (0, s₃) ∧
      FileEntry s₂ 1 (.lit "a") fileMode ⟨.lit "a", idx, fileMode⟩ := by
  obtain ⟨⟨t₀, t₁, t₂, ⟨r, s⟩, ⟨r₁, s₁⟩, ⟨idx, s₂⟩, r₃, s₃⟩, hrun, htest⟩ := exists_of_test
    (x := do
      let t₀ ← init (.zero rdSize) (.lit "ramdisk1")
      let t₁ ← Call.run t₀ (.create 1 (.lit "d") folderMode)
      let t₂ ← Call.run t₁ (.write 2 0 (fun _ => 0x61) 513)
      let s ← remove t₂ 1 (.lit "ramdisk1.txt") fileMode
      let s₁ ← remove s.2 1 (.lit "hello.cpp") fileMode
      let s₂ ← create s.2 1 (.lit "a") fileMode
      let s₃ ← remove s₂.2 1 (.lit "a") fileMode
      return (t₀, t₁, t₂, s, s₁, s₂, s₃))
    (f := fun ⟨t₀, t₁, t₂, s, s₁, s₂, s₃⟩ => decide (Creatable t₀ 1 folderMode ∧
      Roomy t₁ 2 0 513 ∧ s.1 = 0 ∧
      FileEntry t₂ 1 (.lit "ramdisk1.txt") fileMode ⟨.lit "ramdisk1.txt", 3, fileMode⟩ ∧
      s.2.dev.vol.lookup 1 (.lit "ramdisk1.txt") = none ∧ s₁.1 = 0 ∧
      FileEntry s.2 1 (.lit "hello.cpp") fileMode ⟨.lit "hello.cpp", 2, fileMode⟩ ∧
      Creatable s.2 1 fileMode ∧ ¬s.2.dev.vol.Full 1 ∧ s.2.dev.vol.lookup 1 (.lit "a") = none ∧
      s₃.1 = 0 ∧
      FileEntry s₂.2 1 (.lit "a") fileMode ⟨.lit "a", s₂.1, fileMode⟩))
    (by decide +kernel)
  obtain ⟨hdir, hroomy, rfl, hlabel, hgone, rfl, hhello, hcreate, hfull, hnone, rfl,
    ha⟩ := of_decide_eq_true htest
  obtain ⟨_, h₀, hrun⟩ := bind_eq_ok.mp hrun
  obtain ⟨_, h₁, hrun⟩ := bind_eq_ok.mp hrun
  obtain ⟨_, h₂, hrun⟩ := bind_eq_ok.mp hrun
  obtain ⟨⟨_, _⟩, h, hrun⟩ := bind_eq_ok.mp hrun
  obtain ⟨⟨_, _⟩, hremove, hrun⟩ := bind_eq_ok.mp hrun
  obtain ⟨⟨_, _⟩, hmake, hrun⟩ := bind_eq_ok.mp hrun
  obtain ⟨⟨_, _⟩, hremove', hrun⟩ := bind_eq_ok.mp hrun
  cases hrun
  have hnew : Reached rdSize (.lit "ramdisk1") t₀ := .init room_rdSize (by decide) h₀
  have hmade : Reached rdSize (.lit "ramdisk1") t₁ :=
    hnew.call (c := .create 1 (.lit "d") folderMode) ⟨hdir, by decide, by decide⟩ h₁
  have hwritten : Reached rdSize (.lit "ramdisk1") t₂ :=
    hmade.call (c := .write 2 0 (fun _ => 0x61) 513) ⟨hroomy.live, .inr hroomy⟩ h₂
  have hreached : Reached rdSize (.lit "ramdisk1") s :=
    hwritten.call (c := .remove 1 (.lit "ramdisk1.txt") fileMode)
      ⟨hlabel.dir, by decide, .inr ⟨_, hlabel.found, hlabel.deletable,
        hlabel.removable hwritten.kept (by decide) h⟩⟩
      (by rw [Call.run, h]; rfl)
  exact ⟨s, s₁, s₂, s₃, idx, hreached, hgone, hremove, hhello, hcreate, hfull, hnone, hmake,
    hremove', ha⟩

/-- The directory `d` was just made in the root directory, and `ext2_remove` returns 0 for it. -/
theorem made_directory : ∃ s idx s₁ s₂, init (.zero rdSize) (.lit "ramdisk1") = .ok s ∧
    Creatable s s.currentDir folderMode ∧
    create s s.currentDir (.lit "d") folderMode = .ok (idx, s₁) ∧
    remove s₁ s.currentDir (.lit "d") folderMode = .ok (0, s₂) ∧
    s₁.dev.vol.Dir s.currentDir ∧ (s₁.dev.vol.inode s.currentDir).blocks = 1 ∧
    s₁.dev.vol.lookup s.currentDir (.lit "d") = some ⟨.lit "d", idx, folderMode⟩ ∧
    s₁.dev.vol.kids idx = [] ∧ (s₁.dev.vol.inode idx).blocks = 1 ∧
    s₂.dev.vol.Dir s.currentDir ∧
    s₂.dev.vol.lookup s.currentDir (.lit "d") = some ⟨.lit "d", idx, folderMode⟩ ∧
    ¬s₂.dev.vol.Live idx := by
  obtain ⟨⟨s, ⟨idx, s₁⟩, r, s₂⟩, hrun, htest⟩ := exists_of_test
    (x := do
      let s ← init (.zero rdSize) (.lit "ramdisk1")
      let s₁ ← create s s.currentDir (.lit "d") folderMode
      let s₂ ← remove s₁.2 s.currentDir (.lit "d") folderMode
      return (s, s₁, s₂))
    (f := fun ⟨s, s₁, s₂⟩ => decide (Creatable s s.currentDir folderMode ∧ s₂.1 = 0 ∧
      s₁.2.dev.vol.Dir s.currentDir ∧ (s₁.2.dev.vol.inode s.currentDir).blocks = 1 ∧
      s₁.2.dev.vol.lookup s.currentDir (.lit "d") = some ⟨.lit "d", s₁.1, folderMode⟩ ∧
      s₁.2.dev.vol.kids s₁.1 = [] ∧ (s₁.2.dev.vol.inode s₁.1).blocks = 1 ∧
      s₂.2.dev.vol.Dir s.currentDir ∧
      s₂.2.dev.vol.lookup s.currentDir (.lit "d") = some ⟨.lit "d", s₁.1, folderMode⟩ ∧
      ¬s₂.2.dev.vol.Live s₁.1))
    (by decide +kernel)
  obtain ⟨hcreate, rfl, htest⟩ := of_decide_eq_true htest
  obtain ⟨_, hinit, hrun⟩ := bind_eq_ok.mp hrun
  obtain ⟨⟨_, _⟩, hmake, hrun⟩ := bind_eq_ok.mp hrun
  obtain ⟨⟨_, _⟩, hremove, hrun⟩ := bind_eq_ok.mp hrun
  cases hrun
  exact ⟨s, idx, s₁, s₂, hinit, hcreate, hmake, hremove, htest⟩

/-! ## Ownership and removal in every state -/

/-- In a run of careful calls every call returns, and in every state the inodes in use are those of
the root directory and below it, each with one entry and with blocks of its own, and no other inode
or block is marked. -/
theorem reached_owned {size : Nat} {label : CStr} {s : Fs} (h : Reached size label s) :
    Consistent s ∧ s.dev.vol.Owned s.currentDir ∧
      (∀ l, s.dev.vol.inodeMap.bit l = true →
        ∃ i, i.toNat = l + 1 ∧ s.dev.vol.Below s.currentDir i) ∧
      ∀ c : Call, c.Careful s → ∃ s', c.run s = .ok s' := by
  have hkept := h.kept
  refine ⟨hkept.1, hkept.owned, fun l hl => ?_, fun c hc => ?_⟩
  · obtain ⟨i, hlive, hi⟩ := Vol.live_of_bit hl
    exact ⟨i, hi, hkept.owned.below hlive⟩
  · obtain ⟨s', hrun, -⟩ := hc.run hkept
    exact ⟨s', hrun⟩

theorem reached_owned_calls : ∃ s, Reached rdSize (.lit "ramdisk1") s ∧
    s.dev.vol.lookup 1 (.lit "ramdisk1.txt") = none ∧ Consistent s ∧
    s.dev.vol.Owned s.currentDir ∧
    ∃ s', (Call.create 1 (.lit "a") fileMode).run s = .ok s' := by
  obtain ⟨s, -, -, -, -, hreached, hgone, -, -, hcreate, -⟩ := reached_calls
  obtain ⟨hcons, howned, -, hruns⟩ := reached_owned hreached
  have hcareful : (Call.create 1 (.lit "a") fileMode).Careful s :=
    ⟨hcreate, by decide, by decide⟩
  exact ⟨s, hreached, hgone, hcons, howned, hruns _ hcareful⟩

/-- The root directory still has the entry of the removed directory, whose inode is free. -/
theorem removed_directory_listed : ∃ s idx s₁ s₂, init (.zero rdSize) (.lit "ramdisk1") = .ok s ∧
    Creatable s s.currentDir folderMode ∧
    create s s.currentDir (.lit "d") folderMode = .ok (idx, s₁) ∧
    remove s₁ s.currentDir (.lit "d") folderMode = .ok (0, s₂) ∧
    s₂.dev.vol.Dir s.currentDir ∧ ⟨.lit "d", idx, folderMode⟩ ∈ s₂.dev.vol.kids s.currentDir ∧
    ¬s₂.dev.vol.Live idx ∧ ¬s₂.dev.vol.Owned s₂.currentDir := by
  obtain ⟨s, idx, s₁, s₂, hinit, hcreate, hmake, hremove, -, -, -, -, -, hdir, hfind, hfree⟩ :=
    made_directory
  have hkid := kid_of_lookup hfind (by decide)
  exact ⟨s, idx, s₁, s₂, hinit, hcreate, hmake, hremove, hdir, hkid, hfree,
    fun howned => hfree (howned.live hdir hkid).1⟩

/-- In every state that careful calls reach, a removal is right exactly when it fits, and the
removal of what was just created takes everything back exactly when it fits and the directory was
not full. -/
theorem reached_removes {size : Nat} {label : CStr} {s : Fs} (h : Reached size label s)
    {ridx mode : UInt32} {name : CStr} (hname : ¬IsDot name) :
    (s.dev.vol.Dir ridx →
      (∀ e, s.dev.vol.lookup ridx name = some e → has mode typeDir = has e.mode typeDir) →
      (RemovesRight s ridx name mode ↔ RemovalFits s ridx name mode)) ∧
    (Creatable s ridx mode → name.length < 20 →
      ∃ idx s', create s ridx name mode = .ok (idx, s') ∧
        (s.dev.vol.lookup ridx name = none →
          s'.dev.vol.lookup ridx name = some ⟨name, idx, mode⟩) ∧
        (s'.dev.vol.lookup ridx name = some ⟨name, idx, mode⟩ →
          (Restores s s' ridx name mode ↔
            ¬s.dev.vol.Full ridx ∧ Removable s' ridx name mode idx))) := by
  have hkept := h.kept
  refine ⟨fun hd hmode => removesRight_iff hkept.1 hkept.owned hd hname hmode, fun hc hlen => ?_⟩
  obtain ⟨idx, s₁, s₂, s', hrun, hs⟩ := hkept.1.create_ok hc hlen
  exact ⟨idx, s', hrun, hs.lookup_new hc.live,
    fun hfind => hs.restores_iff hkept.1 hkept.owned hc hname hfind⟩

theorem reached_removes_calls : ∃ s, Reached rdSize (.lit "ramdisk1") s ∧
    RemovesRight s 1 (.lit "hello.cpp") fileMode ∧
    ∃ idx s', create s 1 (.lit "a") fileMode = .ok (idx, s') ∧
      Restores s s' 1 (.lit "a") fileMode := by
  obtain ⟨s, s₁, s₂, s₃, idx, hreached, -, hremove, hhello, hcreate, hfull, hnone, hmake, hremove',
    ha⟩ := reached_calls
  have hdot : ¬IsDot (.lit "a") := by decide
  have hlen : (CStr.lit "a").length < 20 := by decide
  have hkept : Kept s₂ := by
    obtain ⟨idx', s', hmake', hkept'⟩ := hreached.kept.create hcreate hlen hdot
    rw [hmake] at hmake'
    cases hmake'
    exact hkept'
  refine ⟨s, hreached, ((reached_removes hreached (by decide)).1 hhello.dir fun e he => ?_).mpr
    ⟨fun e he _ => ?_, fun hnone => ?_⟩, ?_⟩
  · rw [hhello.found] at he
    cases he
    rfl
  · rw [hhello.found] at he
    cases he
    exact hhello.removable hreached.kept (by decide) hremove
  · exact absurd hhello.deletable (hnone _ hhello.found)
  · obtain ⟨idx', s', hmake', hnew, hiff⟩ := (reached_removes hreached hdot).2 hcreate hlen
    rw [hmake] at hmake'
    cases hmake'
    exact ⟨idx, s₂, hmake, (hiff (hnew hnone)).mpr ⟨hfull, ha.removable hkept hdot hremove'⟩⟩

/-- The directory that was just made is empty and is not removed from the listing. -/
theorem made_directory_stays : ∃ s idx s', init (.zero rdSize) (.lit "ramdisk1") = .ok s ∧
    Creatable s s.currentDir folderMode ∧
    create s s.currentDir (.lit "d") folderMode = .ok (idx, s') ∧
    s'.dev.vol.Dir s.currentDir ∧
    s'.dev.vol.lookup s.currentDir (.lit "d") = some ⟨.lit "d", idx, folderMode⟩ ∧
    ¬RemovesRight s' s.currentDir (.lit "d") folderMode ∧
    ¬Restores s s' s.currentDir (.lit "d") folderMode := by
  obtain ⟨s, idx, s₁, s₂, hinit, hcreate, hmake, hremove, hdir, hone, hfind, hkids, hone', -⟩ :=
    made_directory
  have hkept := kept_of_init room_rdSize (by decide) hinit
  have hlen : (CStr.lit "d").length < 20 := by decide
  obtain ⟨idx', _, _, s', hmake', hs⟩ := hkept.1.create_ok hcreate hlen
  rw [hmake] at hmake'
  cases hmake'
  have hcons := hs.consistent hkept.1 hcreate
  have howned := hs.owned hkept.1 hcreate (by decide) hkept.owned
  have hdel : Deletable s₁.dev.vol ⟨.lit "d", idx, folderMode⟩ := fun _ => hkids
  obtain ⟨k, j, -, -, hu⟩ :=
    found_of_remove hcons howned hdir (by decide) hfind hdel hremove
  -- the root directory has one block
  obtain rfl : k = 0 := by
    have hlt := hu.lt
    rw [hone] at hlt
    exact Nat.lt_one_iff.mp hlt
  have hstays : ∀ es, Lists s₂ s.currentDir es → ⟨.lit "d", idx, folderMode⟩ ∈ es := by
    intro es hlists
    by_contra hes
    exact not_lands_dir hcons hdir.1 hu.live hu.ne (by decide) (by rw [hone]; decide)
      (by rw [hone']; decide) (hu.lands_of_lists hcons hlists hes)
  refine ⟨s, idx, s₁, hinit, hcreate, hmake, hdir, hfind, fun hright => ?_, ?_⟩
  · obtain ⟨s'', hrun, hrem⟩ := hright.removes _ hfind hdel
    rw [hremove] at hrun
    cases hrun
    refine List.count_eq_zero.mp ?_ (hstays _ hrem.lists)
    rw [List.count_erase_self, count_kid howned hdir hu.kid]
  · rintro ⟨s'', hrun, hlists, -⟩
    rw [hremove] at hrun
    cases hrun
    have hroot : s.dev.vol.Dir s.currentDir := ⟨hcreate.live, hcreate.dir⟩
    exact hs.not_mem_old hroot hkept.owned (by decide) (hstays _ (hlists _ hroot))

end OsWorkbench.Ext2
