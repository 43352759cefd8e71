import OsWorkbench.Ext2.Contents

/-!
# Who owns the blocks and the inodes

In an owned volume one entry of one directory names each inode in use, but for that of the root
directory, and each marked block is one of an inode in use. A new file system is owned, and
creating and writing keep it so.
-/

namespace OsWorkbench.Ext2

/-- The names of the first two entries of a directory. -/
def IsDot (name : CStr) : Prop := name = .lit "." ∨ name = .lit ".."

instance (name : CStr) : Decidable (IsDot name) := inferInstanceAs (Decidable (_ ∨ _))

namespace Vol

/-- The entries of a directory but for the first two. -/
def kids (v : Vol) (i : UInt32) : List Entry :=
  (entries v (v.inode i)).filter fun e => ¬IsDot e.name

/-- A directory in use. -/
def Dir (v : Vol) (i : UInt32) : Prop := v.Live i ∧ has (v.inode i).mode typeDir = true

instance (v : Vol) (i : UInt32) : Decidable (v.Dir i) := inferInstanceAs (Decidable (_ ∧ _))

/-- The inode is the root directory or below it. -/
inductive Below (v : Vol) (root : UInt32) : UInt32 → Prop
  | root : Below v root root
  | kid {d : UInt32} {e : Entry} : Below v root d → v.Dir d → e ∈ v.kids d → Below v root e.ridx

/-- The inodes in use are a tree: all are below the root directory, and each but that has one entry,
with its mode. Every marked block is one of an inode in use. -/
structure Owned (v : Vol) (root : UInt32) : Prop where
  rootDir : v.Dir root
  live : ∀ {d e}, v.Dir d → e ∈ v.kids d → v.Live e.ridx ∧ e.ridx ≠ root
  mode : ∀ {d e}, v.Dir d → e ∈ v.kids d → (v.inode e.ridx).mode = e.mode
  once : ∀ {d}, v.Dir d → ((v.kids d).map Entry.ridx).Nodup
  one : ∀ {d d' e e'}, v.Dir d → v.Dir d' → e ∈ v.kids d → e' ∈ v.kids d' → e.ridx = e'.ridx →
    d = d'
  below : ∀ {i}, v.Live i → v.Below root i
  dots : ∀ {d}, v.Dir d → (entries v (v.inode d)).length = (v.kids d).length + 2
  used : ∀ {l}, v.blockMap.bit l = true →
    ∃ i k, v.Live i ∧ k < (v.inode i).blocks.toNat ∧ ((v.inode i).blk k).toNat = l
  numbers : ∀ i, (v.inode i).Numbered

variable {v : Vol} {root i : UInt32} {e : Entry}

theorem mem_kids : e ∈ v.kids i ↔ e ∈ entries v (v.inode i) ∧ ¬IsDot e.name := by
  rw [kids, List.mem_filter, decide_eq_true_eq]

/-- A set bit of the inode bitmap is the one of an inode. -/
theorem live_of_bit {l : Nat} (h : v.inodeMap.bit l = true) : ∃ i, v.Live i ∧ i.toNat = l + 1 := by
  have hlt := Bytes.lt_of_bit h
  have hnat := toNat_ofNat_of_lt (a := l + 1) (by omega)
  exact ⟨.ofNat (l + 1), ⟨isInode_ofNat hlt, by rwa [hnat, Nat.add_sub_cancel]⟩, hnat⟩

/-- Two entries of one directory have different inodes. -/
theorem Owned.eq_of_ridx (h : v.Owned root) {d : UInt32} {e e' : Entry} (hd : v.Dir d)
    (he : e ∈ v.kids d) (he' : e' ∈ v.kids d) (hridx : e.ridx = e'.ridx) : e = e' :=
  List.inj_on_of_nodup_map (h.once hd) he he' hridx

end Vol

/-! ## Creating -/

namespace Steps

variable {s s₁ s₂ s' : Fs} {ridx idx mode root : UInt32} {name : CStr}

theorem mode_eq (hs : Steps s s₁ s₂ s' ridx idx name mode) (hr : s.dev.vol.Live ridx) {i : UInt32}
    (hi : s.dev.vol.Live i) : (s'.dev.vol.inode i).mode = (s.dev.vol.inode i).mode := by
  rcases eq_or_ne i ridx with rfl | hne
  · rw [hs.dir hr]
    exact hs.entered.dirMode
  · rw [hs.other hne (hs.ne_of_live hi)]

theorem dir_iff (hs : Steps s s₁ s₂ s' ridx idx name mode) (hr : s.dev.vol.Live ridx) {i : UInt32} :
    s'.dev.vol.Dir i ↔ s.dev.vol.Dir i ∨ i = idx ∧ has mode typeDir = true := by
  unfold Vol.Dir
  rw [hs.live_iff]
  constructor
  · rintro ⟨hi | rfl, hd⟩
    · rw [hs.mode_eq hr hi] at hd
      exact .inl ⟨hi, hd⟩
    · rw [hs.prepared.inodeMode] at hd
      exact .inr ⟨rfl, hd⟩
  · rintro (⟨hi, hd⟩ | ⟨rfl, hd⟩)
    · rw [hs.mode_eq hr hi]
      exact ⟨.inl hi, hd⟩
    · rw [hs.prepared.inodeMode]
      exact ⟨.inr rfl, hd⟩

theorem kids_other (hs : Steps s s₁ s₂ s' ridx idx name mode) (h : Consistent s)
    (hr : s.dev.vol.Live ridx) {i : UInt32} (hi : s.dev.vol.Live i) (hne : i ≠ ridx) :
    s'.dev.vol.kids i = s.dev.vol.kids i := by
  rw [Vol.kids, hs.entries_other h hr hi hne, Vol.kids]

theorem kids_dir (hs : Steps s s₁ s₂ s' ridx idx name mode) (hr : s.dev.vol.Live ridx)
    (hname : ¬IsDot name) :
    (s'.dev.vol.kids ridx).Perm (⟨name, idx, mode⟩ :: s.dev.vol.kids ridx) := by
  obtain ⟨pre, post, hold, hnew⟩ := hs.listed hr
  rw [Vol.kids, hnew, List.filter_append, List.filter_cons_of_pos (by simpa using hname), Vol.kids,
    hold, List.filter_append]
  exact List.perm_middle

theorem kids_new (hs : Steps s s₁ s₂ s' ridx idx name mode) (hd : has mode typeDir = true) :
    s'.dev.vol.kids idx = [] := by
  rw [Vol.kids, (hs.prepared.newDir hd).2.1]
  rfl

/-- The entries of the directories are the old ones and the new one. -/
theorem mem_kids_iff (hs : Steps s s₁ s₂ s' ridx idx name mode) (h : Consistent s)
    (hr : s.dev.vol.Dir ridx) (hname : ¬IsDot name) {d : UInt32} {e : Entry} :
    s'.dev.vol.Dir d ∧ e ∈ s'.dev.vol.kids d ↔
      s.dev.vol.Dir d ∧ e ∈ s.dev.vol.kids d ∨ d = ridx ∧ e = ⟨name, idx, mode⟩ := by
  have hperm := hs.kids_dir hr.1 hname
  constructor
  · rintro ⟨hd, he⟩
    obtain hd | ⟨rfl, hd⟩ := (hs.dir_iff hr.1).mp hd
    · rcases eq_or_ne d ridx with rfl | hne
      · rcases List.mem_cons.mp (hperm.mem_iff.mp he) with rfl | he
        · exact .inr ⟨rfl, rfl⟩
        · exact .inl ⟨hd, he⟩
      · rw [hs.kids_other h hr.1 hd.1 hne] at he
        exact .inl ⟨hd, he⟩
    · rw [hs.kids_new hd] at he
      exact absurd he List.not_mem_nil
  · rintro (⟨hd, he⟩ | ⟨rfl, rfl⟩)
    · refine ⟨(hs.dir_iff hr.1).mpr (.inl hd), ?_⟩
      rcases eq_or_ne d ridx with rfl | hne
      · exact hperm.mem_iff.mpr (List.mem_cons_of_mem _ he)
      · rwa [hs.kids_other h hr.1 hd.1 hne]
    · exact ⟨(hs.dir_iff hr.1).mpr (.inl hr), hperm.mem_iff.mpr List.mem_cons_self⟩

/-- Creating keeps a volume owned. -/
theorem owned (hs : Steps s s₁ s₂ s' ridx idx name mode) (h : Consistent s)
    (hc : Creatable s ridx mode) (hname : ¬IsDot name) (ho : s.dev.vol.Owned root) :
    s'.dev.vol.Owned root := by
  have hr : s.dev.vol.Dir ridx := ⟨hc.live, hc.dir⟩
  have hkids := fun {d e} => hs.mem_kids_iff h hr hname (d := d) (e := e)
  have hfresh : ∀ {d e}, s.dev.vol.Dir d → e ∈ s.dev.vol.kids d → e.ridx ≠ idx :=
    fun hd he => hs.ne_of_live (ho.live hd he).1
  exact {
    rootDir := (hs.dir_iff hr.1).mpr (.inl ho.rootDir)
    live := fun hd he => by
      obtain ⟨hd, he⟩ | ⟨rfl, rfl⟩ := hkids.mp ⟨hd, he⟩
      · exact ⟨hs.live_iff.mpr (.inl (ho.live hd he).1), (ho.live hd he).2⟩
      · exact ⟨hs.live_iff.mpr (.inr rfl), (hs.ne_of_live ho.rootDir.1).symm⟩
    mode := fun hd he => by
      obtain ⟨hd, he⟩ | ⟨rfl, rfl⟩ := hkids.mp ⟨hd, he⟩
      · rw [hs.mode_eq hr.1 (ho.live hd he).1]
        exact ho.mode hd he
      · exact hs.prepared.inodeMode
    once := fun {d} hd => by
      obtain hd | ⟨rfl, hd⟩ := (hs.dir_iff hr.1).mp hd
      · rcases eq_or_ne d ridx with rfl | hne
        · rw [((hs.kids_dir hr.1 hname).map Entry.ridx).nodup_iff, List.map_cons, List.nodup_cons]
          refine ⟨fun hmem => ?_, ho.once hd⟩
          obtain ⟨e, he, hidx⟩ := List.mem_map.mp hmem
          exact hfresh hd he hidx
        · rw [hs.kids_other h hr.1 hd.1 hne]
          exact ho.once hd
      · rw [hs.kids_new hd]
        exact List.nodup_nil
    one := fun hd hd' he he' hridx => by
      obtain ⟨hd, he⟩ | ⟨rfl, rfl⟩ := hkids.mp ⟨hd, he⟩ <;>
        obtain ⟨hd', he'⟩ | ⟨rfl, rfl⟩ := hkids.mp ⟨hd', he'⟩
      · exact ho.one hd hd' he he' hridx
      · exact absurd hridx (hfresh hd he)
      · exact absurd hridx.symm (hfresh hd' he')
      · rfl
    below := fun {i} hi => by
      have hold : ∀ {i}, s.dev.vol.Below root i → s'.dev.vol.Below root i := by
        intro i hi
        induction hi with
        | root => exact .root
        | kid _ hd he ih =>
          obtain ⟨hd', he'⟩ := hkids.mpr (.inl ⟨hd, he⟩)
          exact .kid ih hd' he'
      obtain hi | rfl := hs.live_iff.mp hi
      · exact hold (ho.below hi)
      · obtain ⟨hd', he'⟩ := hkids.mpr (.inr ⟨rfl, rfl⟩)
        exact .kid (hold (ho.below hr.1)) hd' he'
    dots := fun {d} hd => by
      obtain hd | ⟨rfl, hd⟩ := (hs.dir_iff hr.1).mp hd
      · rcases eq_or_ne d ridx with rfl | hne
        · obtain ⟨pre, post, hold, hnew⟩ := hs.listed hr.1
          have hdots := ho.dots hd
          rw [hold, List.length_append] at hdots
          rw [(hs.kids_dir hr.1 hname).length_eq, List.length_cons, hnew, List.length_append,
            List.length_cons]
          omega
        · rw [hs.entries_other h hr.1 hd.1 hne, hs.kids_other h hr.1 hd.1 hne]
          exact ho.dots hd
      · rw [hs.kids_new hd, (hs.prepared.newDir hd).2.1]
        rfl
    used := fun {l} hl => by
      obtain hl | ⟨k, hk, rfl⟩ := (hs.prepared.bits l).mp hl
      · rw [hs.blockMap₂] at hl
        obtain hl | ⟨k, hk, rfl⟩ := hs.entered.taken l hl
        · obtain ⟨i, k, hi, hk, rfl⟩ := ho.used hl
          refine ⟨i, k, hs.live_iff.mpr (.inl hi), ?_⟩
          rcases eq_or_ne i ridx with rfl | hne
          · have hgrown := hs.grown
            rw [hs.dir_blocks hr.1, hs.dir_blk hr.1, hs.entered.same k hk]
            exact ⟨by omega, rfl⟩
          · rw [hs.other hne (hs.ne_of_live hi)]
            exact ⟨hk, rfl⟩
        · exact ⟨ridx, k, hs.live_iff.mpr (.inl hr.1), by rwa [hs.dir_blocks hr.1],
            by rw [hs.dir_blk hr.1]⟩
      · exact ⟨idx, k, hs.live_iff.mpr (.inr rfl), hk, rfl⟩
    numbers := fun i => by
      have hne := hs.ne_of_live hr.1
      rcases eq_or_ne i idx with rfl | hi
      · refine hs.prepared.numbers ?_
        rw [hs.vol]
        show Inode.Numbered (Function.update s₁.dev.vol.inode ridx _ i)
        rw [Function.update_of_ne hne.symm, hs.entered.inode]
        exact ho.numbers i
      · rcases eq_or_ne i ridx with rfl | hir
        · rw [hs.dir hr.1]
          exact hs.entered.numbers (ho.numbers i)
        · rw [hs.other hir hi]
          exact ho.numbers i }

end Steps

/-! ## Writing -/

/-- A volume with the same inodes in use, of the same modes, and the same directories. -/
theorem Vol.Owned.of_entries {v v' : Vol} {root : UInt32} (h : v.Owned root)
    (hlive : ∀ i, v'.Live i ↔ v.Live i)
    (hmode : ∀ i, v.Live i → (v'.inode i).mode = (v.inode i).mode)
    (hentries : ∀ d, v.Dir d → entries v' (v'.inode d) = entries v (v.inode d))
    (hused : ∀ l, v'.blockMap.bit l = true →
      ∃ i k, v.Live i ∧ k < (v'.inode i).blocks.toNat ∧ ((v'.inode i).blk k).toNat = l)
    (hnumbers : ∀ i, (v'.inode i).Numbered) : v'.Owned root := by
  have hdir : ∀ {d}, v'.Dir d ↔ v.Dir d := by
    intro d
    unfold Vol.Dir
    rw [hlive]
    exact and_congr_right fun hd => by rw [hmode d hd]
  have hkids : ∀ {d}, v.Dir d → v'.kids d = v.kids d := fun hd => by
    rw [Vol.kids, hentries _ hd, Vol.kids]
  exact {
    rootDir := hdir.mpr h.rootDir
    live := fun hd he => by
      rw [hdir] at hd
      rw [hkids hd] at he
      rw [hlive]
      exact h.live hd he
    mode := fun hd he => by
      rw [hdir] at hd
      rw [hkids hd] at he
      rw [hmode _ (h.live hd he).1]
      exact h.mode hd he
    once := fun hd => by
      rw [hdir] at hd
      rw [hkids hd]
      exact h.once hd
    one := fun hd hd' he he' => by
      rw [hdir] at hd hd'
      rw [hkids hd] at he
      rw [hkids hd'] at he'
      exact h.one hd hd' he he'
    below := fun {i} hi => by
      rw [hlive] at hi
      have hi := h.below hi
      induction hi with
      | root => exact .root
      | kid _ hd he ih => exact .kid (ih hd.1) (hdir.mpr hd) (by rwa [hkids hd])
    dots := fun hd => by
      rw [hdir] at hd
      rw [hentries _ hd, hkids hd]
      exact h.dots hd
    used := fun hl => by
      obtain ⟨i, k, hi, hk, hblk⟩ := hused _ hl
      exact ⟨i, k, (hlive i).mpr hi, hk, hblk⟩
    numbers := hnumbers }

/-- Writing a file keeps a volume owned. -/
theorem Resizes.owned {s t t' : Fs} {r size root : UInt32} {offset n skip need : Nat}
    {f : Nat → UInt8} (hr : s.dev.vol.Live r)
    (hfile : has (s.dev.vol.inode r).mode typeDir = false)
    (hres : Resized { s with ind := s.dev.vol.inode r } t need) (hcop : Copied t t' skip need f)
    (hwrote : Resizes s (t'.saved r size) r offset n) (ho : s.dev.vol.Owned root) :
    (t'.saved r size).dev.vol.Owned root := by
  have hvol := vol_saved hr.1 size hres hcop
  have hself : (t'.saved r size).dev.vol.inode r = { t.ind with size := size } := by
    rw [hvol]
    exact Function.update_self ..
  have hblocks : t.ind.blocks.toNat = need := hres.blocks
  have hdir : ∀ {d}, s.dev.vol.Dir d → d ≠ r := by
    rintro d hd rfl
    exact Bool.false_ne_true (hfile.symm.trans hd.2)
  refine ho.of_entries (fun i => ?_) (fun i hi => ?_) (fun d hd => ?_) (fun l hl => ?_) fun i => ?_
  · rw [Vol.Live, hwrote.inodeMap, Vol.Live]
  · rcases eq_or_ne i r with rfl | hne
    · exact hwrote.mode
    · rw [hwrote.inodes i hne]
  · rw [hwrote.inodes d (hdir hd)]
    exact List.flatMap_congr fun k hk => by
      rw [hwrote.contents d hd.1 (hdir hd) k (List.mem_range.mp hk)]
  · rw [show (t'.saved r size).dev.vol.blockMap = t.dev.vol.blockMap by rw [hvol]] at hl
    by_cases hnew : ∃ k, k < need ∧ (t.ind.blk k).toNat = l
    · obtain ⟨k, hk, rfl⟩ := hnew
      refine ⟨r, k, hr, ?_, ?_⟩
      · rw [hself]
        exact hk.trans_eq hblocks.symm
      · rw [hself]
        rfl
    · push Not at hnew
      -- a marked block that the file has no more is one of another inode
      have hold : ∀ k, k < (s.dev.vol.inode r).blocks.toNat →
          ((s.dev.vol.inode r).blk k).toNat ≠ l := by
        rintro k hk rfl
        have hgone := hres.gone k hk fun k' hk' he => hnew k' hk' (by rw [he])
        have hgone : t.dev.vol.blockMap.bit ((s.dev.vol.inode r).blk k).toNat = false := hgone
        rw [hl] at hgone
        cases hgone
      have hsame : t.dev.vol.blockMap.bit l = s.dev.vol.blockMap.bit l := hres.others l hold hnew
      obtain ⟨i, k, hi, hk, hblk⟩ := ho.used (hsame ▸ hl)
      have hne : i ≠ r := by
        rintro rfl
        exact hold k hk hblk
      refine ⟨i, k, hi, ?_⟩
      rw [hwrote.inodes i hne]
      exact ⟨hk, hblk⟩
  · rcases eq_or_ne i r with rfl | hne
    · rw [hself]
      exact hres.numbers (ho.numbers i)
    · rw [hwrote.inodes i hne]
      exact ho.numbers i

/-! ## A new file system -/

theorem numbered_zero (size : Nat) (i : UInt32) : ((Device.zero size).vol.inode i).Numbered := by
  intro k
  have hblk : ((Device.zero size).vol.inode i).blk k = 0 := by
    unfold Device.vol
    dsimp only
    split
    · unfold Device.inodeAt Inode.decode Inode.blk
      split
      · exact Bytes.get32_eq fun q hq => by
          unfold Bytes.get
          split <;> simp [load, Device.zero, byteOf]
      · rfl
    · unfold Inode.blk Inode.zero
      split <;> rfl
  rw [hblk]
  decide

theorem not_isDot_label (name : CStr) : ¬IsDot (name.append (.lit ".txt")) := by
  have hlen := length_append name
  rintro (he | he)
  · rw [he, show (CStr.lit ".").length = 1 by decide] at hlen
    omega
  · rw [he, show (CStr.lit "..").length = 2 by decide] at hlen
    omega

section Made

variable {d : Device} {name : CStr} {s : Fs} {b₀ b₁ b₂ c₀ c₁ c₂ j₁ j₂ : Nat}

theorem Made.entries_root (h : Made d name s b₀ b₁ b₂ c₀ c₁ c₂ j₁ j₂) (hd : d.Clean)
    (hname : name.length < 16) :
    entries s.dev.vol (s.dev.vol.inode s.currentDir) = listing d name c₀ c₁ c₂ := by
  rw [entries, h.rooted.blocks, show (1 : UInt32).toNat = 1 from rfl, List.range_one,
    List.flatMap_singleton]
  exact (h.slots_clean hd hname).1

theorem Made.kids_root (h : Made d name s b₀ b₁ b₂ c₀ c₁ c₂ j₁ j₂) (hd : d.Clean)
    (hname : name.length < 16) : s.dev.vol.kids s.currentDir =
      [⟨.lit "hello.cpp", .ofNat (c₁ + 1), fileMode⟩,
        ⟨name.append (.lit ".txt"), .ofNat (c₂ + 1), fileMode⟩] := by
  have hlabel := not_isDot_label name
  have hnames : IsDot (.lit ".") ∧ IsDot (.lit "..") ∧ ¬IsDot (.lit "hello.cpp") := by decide
  rw [Vol.kids, h.entries_root hd hname, listing]
  simp [hlabel, hnames]

/-- The root directory is the only one. -/
theorem Made.dir_iff (h : Made d name s b₀ b₁ b₂ c₀ c₁ c₂ j₁ j₂) (hd : d.Clean) {i : UInt32} :
    s.dev.vol.Dir i ↔ i = s.currentDir := by
  have hmode : has fileMode typeDir ≠ true := by decide
  constructor
  · rintro ⟨hi, hdir⟩
    obtain ⟨b, c, hbc, rfl, -⟩ := (h.live_iff hd).mp hi
    simp only [List.mem_cons, List.not_mem_nil, or_false, Prod.mk.injEq] at hbc
    rcases hbc with ⟨rfl, -⟩ | ⟨rfl, -⟩ | ⟨rfl, -⟩
    · exact h.dir.symm
    · rw [h.hello.mode] at hdir
      exact absurd hdir hmode
    · rw [h.label.mode] at hdir
      exact absurd hdir hmode
  · rintro rfl
    refine ⟨(h.live_iff hd).mpr ⟨b₀, c₀, by simp, h.dir, h.rooted.blocks, h.root⟩, ?_⟩
    rw [h.rootMode]
    decide

/-- On a clean device the new file system is owned. -/
theorem Made.owned (h : Made d name s b₀ b₁ b₂ c₀ c₁ c₂ j₁ j₂) (hd : d.Clean)
    (hname : name.length < 16) (hnumbers : ∀ i, (d.vol.inode i).Numbered) :
    s.dev.vol.Owned s.currentDir := by
  obtain ⟨hnodup, hlt, -, -⟩ := h.inodes.spec (by decide)
  have hf := h.formatted hd hname
  have hkids := h.kids_root hd hname
  have hdir := h.dir
  have hlive₁ : s.dev.vol.Live (.ofNat (c₁ + 1)) :=
    (h.live_iff hd).mpr ⟨b₁, c₁, by simp, rfl, h.hello.blocks, h.hello.blk⟩
  have hlive₂ : s.dev.vol.Live (.ofNat (c₂ + 1)) :=
    (h.live_iff hd).mpr ⟨b₂, c₂, by simp, rfl, h.label.blocks, h.label.blk⟩
  have hne : ∀ a b, a ∈ [c₀, c₁, c₂] → b ∈ [c₀, c₁, c₂] → a ≠ b →
      UInt32.ofNat (a + 1) ≠ .ofNat (b + 1) := fun a b ha hb hab he =>
    hab (Nat.succ.inj (ofNat_inj (by have := (hlt a ha).1; omega)
      (by have := (hlt b hb).1; omega) he))
  simp only [List.nodup_cons, List.mem_cons, List.not_mem_nil, or_false, not_or, List.nodup_nil,
    not_false_eq_true, and_true] at hnodup
  have hmem : ∀ {e}, e ∈ s.dev.vol.kids s.currentDir →
      e.mode = fileMode ∧ (e.ridx = .ofNat (c₁ + 1) ∨ e.ridx = .ofNat (c₂ + 1)) := by
    intro e he
    rw [hkids] at he
    simp only [List.mem_cons, List.not_mem_nil, or_false] at he
    rcases he with rfl | rfl
    · exact ⟨rfl, .inl rfl⟩
    · exact ⟨rfl, .inr rfl⟩
  exact {
    rootDir := (h.dir_iff hd).mpr rfl
    live := fun {d' e} hd' he => by
      obtain rfl := (h.dir_iff hd).mp hd'
      rw [hdir]
      obtain ⟨-, hridx | hridx⟩ := hmem he
      · rw [hridx]
        exact ⟨hlive₁, hne c₁ c₀ (by simp) (by simp) (Ne.symm hnodup.1.1)⟩
      · rw [hridx]
        exact ⟨hlive₂, hne c₂ c₀ (by simp) (by simp) (Ne.symm hnodup.1.2)⟩
    mode := fun {d' e} hd' he => by
      obtain rfl := (h.dir_iff hd).mp hd'
      obtain ⟨hmode, hridx | hridx⟩ := hmem he
      · rw [hridx, h.hello.mode, hmode]
      · rw [hridx, h.label.mode, hmode]
    once := fun {d'} hd' => by
      obtain rfl := (h.dir_iff hd).mp hd'
      rw [hkids]
      simpa using hne c₁ c₂ (by simp) (by simp) hnodup.2
    one := fun hd' hd'' _ _ _ => ((h.dir_iff hd).mp hd').trans ((h.dir_iff hd).mp hd'').symm
    below := fun {i} hi => by
      have hrootDir := (h.dir_iff hd).mpr rfl
      obtain ⟨b, c, hbc, rfl, -⟩ := (h.live_iff hd).mp hi
      simp only [List.mem_cons, List.not_mem_nil, or_false, Prod.mk.injEq] at hbc
      rcases hbc with ⟨rfl, -⟩ | ⟨rfl, -⟩ | ⟨rfl, -⟩
      · rw [hdir]
        exact .root
      · exact .kid (e := ⟨_, _, _⟩) .root hrootDir (by rw [hkids]; exact List.mem_cons_self)
      · exact .kid (e := ⟨_, _, _⟩) .root hrootDir
          (by rw [hkids]; exact List.mem_cons_of_mem _ List.mem_cons_self)
    dots := fun {d'} hd' => by
      obtain rfl := (h.dir_iff hd).mp hd'
      rw [h.entries_root hd hname, hkids]
      rfl
    used := fun {l} hl => by
      obtain ⟨e, he, k, hk, hblk⟩ := (hf.blocks l).mp hl
      refine ⟨e.ridx, k, ?_, hk, hblk⟩
      have hroot := ((h.dir_iff hd).mpr rfl).1
      rw [hdir] at hroot
      simp only [listing, List.mem_cons, List.not_mem_nil, or_false] at he
      rcases he with rfl | rfl | rfl | rfl
      · exact hroot
      · exact hroot
      · exact hlive₁
      · exact hlive₂
    numbers := h.numbers hnumbers }

end Made

end OsWorkbench.Ext2
