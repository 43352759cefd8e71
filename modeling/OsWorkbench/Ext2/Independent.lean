import OsWorkbench.Ext2.Format

/-!
# Two formatted devices

Formatting does not depend on the old content of a device exactly where `ext2_init` finds
empty bitmaps, no entry in block 0 behind the first two, and the same modes in these two.
-/

namespace OsWorkbench.Ext2

/-! ## What formatting is for -/

/-- A new file system, whose root directory lists the entries `es`. -/
structure Formatted (s : Fs) (name : CStr) (es : List Entry) : Prop where
  lists : Lists s s.currentDir es
  names : (es.map Entry.name).Perm
    [.lit ".", .lit "..", .lit "hello.cpp", name.append (.lit ".txt")]
  freeBlocks : Counts s.gdt.freeBlocksCount s.dev.vol.blockMap
  freeInodes : Counts s.gdt.freeInodesCount s.dev.vol.inodeMap
  blocks : ∀ l, s.dev.vol.blockMap.bit l = true ↔ ∃ e ∈ es, ∃ k,
    k < (s.dev.vol.inode e.ridx).blocks.toNat ∧ ((s.dev.vol.inode e.ridx).blk k).toNat = l
  inodes : ∀ l, s.dev.vol.inodeMap.bit l = true ↔ ∃ e ∈ es, e.ridx.toNat = l + 1

/-- What `ext2_read` returns and leaves in the buffer. -/
def readFile (s : Fs) (ridx : UInt32) (buf : Nat → UInt8) (len : UInt32) :
    Except Fault (Nat × (Nat → UInt8)) := do
  let r ← read s ridx 0 buf len
  return (r.1, r.2.1)

/-- Both devices give the same listing, counters and files. -/
def Independent (d d' : Device) (name : CStr) : Prop :=
  ∃ s s' es, init d name = .ok s ∧ init d' name = .ok s' ∧ Formatted s name es ∧
    Formatted s' name es ∧ s.gdt.freeBlocksCount = s'.gdt.freeBlocksCount ∧
    s.gdt.freeInodesCount = s'.gdt.freeInodesCount ∧
    ∀ e ∈ es, e.name ≠ .lit "." → e.name ≠ .lit ".." → ∀ buf len,
      readFile s e.ridx buf len = readFile s' e.ridx buf len

/-! ## The files -/

theorem readBytes_congr {b b' : Block} {size len n j ret : Nat} {offset : UInt64}
    {buf : Nat → UInt8}
    (h : ∀ p, p < j + n → b.get p = b'.get p) :
    readBytes b size len offset 0 n j ret buf = readBytes b' size len offset 0 n j ret buf := by
  induction n generalizing j ret buf with
  | zero => rfl
  | succ n ih =>
    rw [readBytes, readBytes, Nat.add_zero, h j (by omega), ih fun p hp => h p (by omega)]

theorem readFile_text {s : Fs} {i n : UInt32} {text : CStr} (h : s.dev.Room) (hi : IsInode i)
    (hn : IsBlock n) (ht : HoldsText s.dev.vol i n text) (hlen : text.length ≤ 512)
    (buf : Nat → UInt8) (len : UInt32) :
    readFile s i buf len = (do
      let r ← readBytes (s.dev.vol.block n) text.length len.toNat 0 0 text.length 0 0 buf
      return r.2) := by
  have hskip : (0 : UInt64).toNat / blkSize % 2 ^ 32 = 0 := by decide
  have hfirst : sub32 ((0 : UInt64).toNat % 2 ^ 32) (0 * blkSize % 2 ^ 32) = 0 := by decide
  have hsize : (s.dev.vol.inode i).size.toNat = text.length := by
    rw [ht.size, toNat_length hlen]
  have hall : sub32 text.length (0 * blkSize % 2 ^ 32) = text.length := by
    unfold sub32
    omega
  have hone : (s.dev.vol.inode i).blocks.toNat - 0 = 1 := by
    rw [ht.blocks]
    rfl
  have hread : rdDatablock { s with ind := s.dev.vol.inode i } ((s.dev.vol.inode i).blk 0) =
      .ok { s with ind := s.dev.vol.inode i, datablockbuf := s.dev.vol.block n } := by
    rw [ht.blk]
    exact rdDatablock_ok (by exact h) hn
  unfold readFile
  rw [read, rdInd_ok h hi, ok_bind]
  simp only [hskip, hfirst, hone]
  rw [readBlocks, inBounds_bind (by decide), hread, ok_bind]
  simp only [hsize, hall, if_pos]
  cases hr : readBytes (s.dev.vol.block n) text.length len.toNat 0 0 text.length 0 0 buf with
  | error e => rfl
  | ok r =>
    simp only [ok_bind]
    split <;> rfl

theorem readFile_congr {s s' : Fs} {i n : UInt32} {text : CStr} (h : s.dev.Room) (h' : s'.dev.Room)
    (hi : IsInode i) (hn : IsBlock n) (ht : HoldsText s.dev.vol i n text)
    (ht' : HoldsText s'.dev.vol i n text) (hlen : text.length ≤ 512) (buf : Nat → UInt8)
    (len : UInt32) : readFile s i buf len = readFile s' i buf len := by
  rw [readFile_text h hi hn ht hlen, readFile_text h' hi hn ht' hlen,
    readBytes_congr fun p hp => (ht.text p (by omega)).trans (ht'.text p (by omega)).symm]

/-! ## The listing -/

/-- What the root directory of a clean device lists. -/
def listing (d : Device) (name : CStr) (c₀ c₁ c₂ : Nat) : List Entry :=
  [⟨.lit ".", .ofNat (c₀ + 1), dirMode (d.vol.block 0) 0⟩,
    ⟨.lit "..", .ofNat (c₀ + 1), dirMode (d.vol.block 0) 1⟩,
    ⟨.lit "hello.cpp", .ofNat (c₁ + 1), fileMode⟩,
    ⟨name.append (.lit ".txt"), .ofNat (c₂ + 1), fileMode⟩]

theorem slot_rootBlock (d : Block) {c : UInt32} (hc : c ≠ 0) :
    slot (rootBlock d c) 0 = some ⟨.lit ".", c, dirMode d 0⟩ ∧
      slot (rootBlock d c) 1 = some ⟨.lit "..", c, dirMode d 1⟩ := by
  have h0 := dirInode_rootBlock d c (j := 0) (by decide)
  have h1 := dirInode_rootBlock d c (j := 1) (by decide)
  obtain ⟨hname0, hname1⟩ := dirName_withDots (setDirNameLen (setDirNameLen
    (setDirInode (setDirInode d 1 c) 0 c) 1 0) 0 0)
  rw [slot_of_ne (by rwa [h0]), slot_of_ne (by rwa [h1]), h0, h1,
    show dirMode (rootBlock d c) 0 = dirMode d 0 from get32_rootBlock d c (by decide),
    show dirMode (rootBlock d c) 1 = dirMode d 1 from get32_rootBlock d c (by decide)]
  exact ⟨by rw [rootBlock, hname0], by rw [rootBlock, hname1]⟩

section Listing

variable {d : Device} {name : CStr} {s : Fs} {b₀ b₁ b₂ c₀ c₁ c₂ j₁ j₂ : Nat}

/-- The two files are entered behind the first two entries. -/
theorem Made.slots_clean (h : Made d name s b₀ b₁ b₂ c₀ c₁ c₂ j₁ j₂) (hd : d.Clean)
    (hname : name.length < 16) : blockEntries s.rootSlots = listing d name c₀ c₁ c₂ ∧
      Terminated s.rootSlots := by
  obtain ⟨b, hfind₁, hfill₁, hfind₂, hfill₂⟩ := h.slots
  obtain ⟨-, hlti, -⟩ := h.inodes.spec (by decide)
  have hc₀ := (isInode_ofNat (hlti c₀ (by simp)).1).ne_zero
  have hc₁ := (isInode_ofNat (hlti c₁ (by simp)).1).ne_zero
  have hc₂ := (isInode_ofNat (hlti c₂ (by simp)).1).ne_zero
  obtain rfl : 2 = j₁ := Option.some.inj ((hd.slots_free hc₀).symm.trans hfind₁)
  obtain rfl : 3 = j₂ :=
    Option.some.inj ((hd.filled hc₀ hc₁ (by decide) hfill₁).symm.trans hfind₂)
  obtain ⟨b', hok₁, hsame₁, hinode₁, hmode₁, hname₁⟩ := fillEntry_ok
    (rootBlock (d.vol.block 0) (.ofNat (c₀ + 1))) (j := 2) (by decide) (.ofNat (c₁ + 1))
    fileMode (show (CStr.lit "hello.cpp").length < 20 by decide)
  rw [hfill₁] at hok₁
  cases hok₁
  have hlen : (name.append (.lit ".txt")).length < 20 := by
    rw [length_append]
    omega
  obtain ⟨b', hok₂, hsame₂, hinode₂, hmode₂, hname₂⟩ :=
    fillEntry_ok b (j := 3) (by decide) (.ofNat (c₂ + 1)) fileMode hlen
  rw [hfill₂] at hok₂
  cases hok₂
  obtain ⟨-, hterm⟩ := rootBlock_spec (d := d.vol.block 0) hc₀ hd.slots
  have hterm₁ := hsame₁.terminated hterm (by rw [hname₁]; decide)
  have hterm₂ := hsame₂.terminated hterm₁ (by rw [hname₂]; unfold dirSize; omega)
  refine ⟨?_, hterm₂⟩
  have hslot : ∀ i, i < 2 →
      slot s.rootSlots i = slot (rootBlock (d.vol.block 0) (.ofNat (c₀ + 1))) i := fun i hi => by
    have hi16 : i < dirAmut := by
      unfold dirAmut
      omega
    rw [hsame₂.slot hterm₁ (by omega) hi16, hsame₁.slot hterm (by omega) hi16]
  have hfree : ∀ j, 4 ≤ j → j < dirAmut → dirInode s.rootSlots j = 0 := fun j hj hj16 => by
    rw [hsame₂.dirInode (by omega), hsame₁.dirInode (by omega), rootBlock_free (by omega)]
    exact hd.slots j (by omega) hj16
  have h2 : slot s.rootSlots 2 = some ⟨.lit "hello.cpp", .ofNat (c₁ + 1), fileMode⟩ := by
    rw [hsame₂.slot hterm₁ (by decide) (by decide), slot_of_ne (by rwa [hinode₁]), hinode₁, hmode₁,
      hname₁]
  have h3 : slot s.rootSlots 3 = some ⟨name.append (.lit ".txt"), .ofNat (c₂ + 1), fileMode⟩ := by
    rw [slot_of_ne (by rwa [hinode₂]), hinode₂, hmode₂, hname₂]
  obtain ⟨h0, h1⟩ := slot_rootBlock (d.vol.block 0) hc₀
  rw [← hslot 0 (by decide)] at h0
  rw [← hslot 1 (by decide)] at h1
  rw [blockEntries_of_clear (n := 4) (by decide) hfree]
  simp only [List.range_succ, List.range_zero, List.nil_append, List.cons_append,
    List.filterMap_cons, List.filterMap_nil, h0, h1, h2, h3]
  rfl

theorem only_block {x : Inode} {b l : Nat} (h : x.blocks = 1) (hb : x.blk 0 = .ofNat b)
    (hlt : b < 8 * 512) : (∃ k, k < x.blocks.toNat ∧ (x.blk k).toNat = l) ↔ l = b := by
  have hone : x.blocks.toNat = 1 := by
    rw [h]
    rfl
  have hnat := toNat_ofNat_of_lt (a := b) (by omega)
  constructor
  · rintro ⟨k, hk, rfl⟩
    obtain rfl : k = 0 := by omega
    rw [hb, hnat]
  · rintro rfl
    exact ⟨0, by omega, by rw [hb, hnat]⟩

theorem Made.formatted (h : Made d name s b₀ b₁ b₂ c₀ c₁ c₂ j₁ j₂) (hd : d.Clean)
    (hname : name.length < 16) : Formatted s name (listing d name c₀ c₁ c₂) := by
  obtain ⟨hentries, hterm⟩ := h.slots_clean hd hname
  have hone : (s.dev.vol.inode s.currentDir).blocks.toNat = 1 := by
    rw [h.rooted.blocks]
    rfl
  have hroot : IsInode s.currentDir := h.rooted.root.1
  obtain ⟨-, hltb, hbits, hcard⟩ := h.blocks.spec (by decide)
  obtain ⟨-, hlti, hbits', hcard'⟩ := h.inodes.spec (by decide)
  rw [hd.blockMap, used_zero] at hcard
  rw [hd.inodeMap, used_zero] at hcard'
  exact {
    lists := by
      have hlist := lists_entries h.rooted.room hroot
        ⟨by rw [hone]; decide, fun k hk => by
          obtain rfl : k = 0 := by omega
          exact h.rooted.block⟩
        fun k hk => by
          obtain rfl : k = 0 := by omega
          exact hterm
      rw [entries, hone, List.range_one, List.flatMap_singleton] at hlist
      rwa [← hentries]
    names := .refl _
    freeBlocks := by
      rw [Counts, hcard, h.freeBlocks]
      rfl
    freeInodes := by
      rw [Counts, hcard', h.freeInodes]
      rfl
    blocks := fun l => by
      have hdir := h.dir
      rw [hbits, hd.blockMap, bit_zero, Bool.false_or, decide_eq_true_eq]
      simp only [listing, List.mem_cons, List.not_mem_nil, or_false, exists_eq_or_imp,
        exists_eq_left]
      rw [← hdir, only_block h.rooted.blocks h.root (hltb b₀ (by simp)).1,
        only_block h.hello.blocks h.hello.blk (hltb b₁ (by simp)).1,
        only_block h.label.blocks h.label.blk (hltb b₂ (by simp)).1, or_self_left]
    inodes := fun l => by
      have hnat : ∀ c ∈ [c₀, c₁, c₂], ((UInt32.ofNat (c + 1)).toNat = l + 1 ↔ l = c) := by
        intro c hc
        rw [toNat_ofNat_of_lt (by have := (hlti c hc).1; omega)]
        omega
      rw [hbits', hd.inodeMap, bit_zero, Bool.false_or, decide_eq_true_eq]
      simp only [listing, List.mem_cons, List.not_mem_nil, or_false, exists_eq_or_imp,
        exists_eq_left]
      rw [hnat c₀ (by simp), hnat c₁ (by simp), hnat c₂ (by simp), or_self_left] }

/-- On clean devices the same numbers are given out. -/
theorem Made.same_numbers {d' : Device} {s' : Fs} {b₀' b₁' b₂' c₀' c₁' c₂' j₁' j₂' : Nat}
    (h : Made d name s b₀ b₁ b₂ c₀ c₁ c₂ j₁ j₂)
    (h' : Made d' name s' b₀' b₁' b₂' c₀' c₁' c₂' j₁' j₂') (hd : d.Clean) (hd' : d'.Clean) :
    b₀ = b₀' ∧ b₁ = b₁' ∧ b₂ = b₂' ∧ c₀ = c₀' ∧ c₁ = c₁' ∧ c₂ = c₂' := by
  have hblocks := h'.blocks
  have hinodes := h'.inodes
  rw [hd'.blockMap, ← hd.blockMap] at hblocks
  rw [hd'.inodeMap, ← hd.inodeMap] at hinodes
  have hb := (h.blocks.det hblocks rfl).1
  have hc := (h.inodes.det hinodes rfl).1
  simp only [List.cons.injEq, and_true] at hb hc
  exact ⟨hb.1, hb.2.1, hb.2.2, hc.1, hc.2.1, hc.2.2⟩

/-- The inodes in use, with their blocks. -/
theorem Made.live_iff (h : Made d name s b₀ b₁ b₂ c₀ c₁ c₂ j₁ j₂) (hd : d.Clean) {i : UInt32} :
    s.dev.vol.Live i ↔ ∃ b c, (c, b) ∈ [(c₀, b₀), (c₁, b₁), (c₂, b₂)] ∧ i = .ofNat (c + 1) ∧
      (s.dev.vol.inode i).blocks = 1 ∧ (s.dev.vol.inode i).blk 0 = .ofNat b := by
  obtain ⟨-, hlti, hbits, -⟩ := h.inodes.spec (by decide)
  have hdir := h.dir
  constructor
  · rintro ⟨hi, hbit⟩
    have hpos := hi.1
    rw [hbits, hd.inodeMap, bit_zero, Bool.false_or, decide_eq_true_eq] at hbit
    have heq : ∀ c, c < 8 * 512 → i.toNat - 1 = c → i = .ofNat (c + 1) := fun c hc he =>
      UInt32.toNat_inj.mp (by rw [toNat_ofNat_of_lt (by omega)]; omega)
    simp only [List.mem_cons, List.not_mem_nil, or_false] at hbit
    rcases hbit with he | he | he
    · refine ⟨b₀, c₀, by simp, heq c₀ (hlti c₀ (by simp)).1 he, ?_⟩
      rw [heq c₀ (hlti c₀ (by simp)).1 he, ← hdir]
      exact ⟨h.rooted.blocks, h.root⟩
    · refine ⟨b₁, c₁, by simp, heq c₁ (hlti c₁ (by simp)).1 he, ?_⟩
      rw [heq c₁ (hlti c₁ (by simp)).1 he]
      exact ⟨h.hello.blocks, h.hello.blk⟩
    · refine ⟨b₂, c₂, by simp, heq c₂ (hlti c₂ (by simp)).1 he, ?_⟩
      rw [heq c₂ (hlti c₂ (by simp)).1 he]
      exact ⟨h.label.blocks, h.label.blk⟩
  · rintro ⟨b, c, hmem, rfl, -, -⟩
    have hc : c ∈ [c₀, c₁, c₂] := by
      simp only [List.mem_cons, List.not_mem_nil, or_false, Prod.mk.injEq] at hmem ⊢
      omega
    have hlt := (hlti c hc).1
    refine ⟨isInode_ofNat hlt, ?_⟩
    rw [hbits, toNat_ofNat_of_lt (by omega), Nat.add_sub_cancel]
    simp [hc]

/-- On a clean device the new file system is consistent. -/
theorem Made.consistent (h : Made d name s b₀ b₁ b₂ c₀ c₁ c₂ j₁ j₂) (hd : d.Clean)
    (hname : name.length < 16) : Consistent s := by
  obtain ⟨hentries, hterm⟩ := h.slots_clean hd hname
  have hf := h.formatted hd hname
  obtain ⟨hnodupb, hltb, hbits, -⟩ := h.blocks.spec (by decide)
  obtain ⟨hnodupi, hlti, -, -⟩ := h.inodes.spec (by decide)
  have hone : ∀ {x : Inode} {k : Nat}, x.blocks = 1 → k < x.blocks.toNat → k = 0 := by
    intro x k hx hk
    rw [hx] at hk
    have hk1 : k < 1 := hk
    omega
  have hmem : ∀ {b c : Nat}, (c, b) ∈ [(c₀, b₀), (c₁, b₁), (c₂, b₂)] → b ∈ [b₀, b₁, b₂] := by
    intro b c hmem
    simp only [List.mem_cons, List.not_mem_nil, or_false, Prod.mk.injEq] at hmem ⊢
    omega
  have hroot : ∀ {i}, s.dev.vol.Live i → has (s.dev.vol.inode i).mode typeDir = true →
      i = s.currentDir := by
    intro i hi hdir
    have hmode : has fileMode typeDir ≠ true := by decide
    obtain ⟨b, c, hbc, rfl, -⟩ := (h.live_iff hd).mp hi
    simp only [List.mem_cons, List.not_mem_nil, or_false, Prod.mk.injEq] at hbc
    rcases hbc with ⟨rfl, -⟩ | ⟨rfl, -⟩ | ⟨rfl, -⟩
    · exact h.dir.symm
    · rw [h.hello.mode] at hdir
      exact absurd hdir hmode
    · rw [h.label.mode] at hdir
      exact absurd hdir hmode
  refine ⟨h.rooted.room, ?_, h.rooted.lastBlock, h.rooted.lastInode, hf.freeBlocks, hf.freeInodes⟩
  refine ⟨fun hi => ?_, fun hi hk => ?_, fun {i i' k k'} hi hi' hk hk' he => ?_, fun hi hdir => ?_,
    fun hi hdir hk => ?_⟩
  · obtain ⟨b, c, hbc, -, hx, hb⟩ := (h.live_iff hd).mp hi
    refine ⟨by rw [hx]; decide, fun k hk => ?_⟩
    rw [hone hx hk, hb]
    exact isBlock_ofNat (hltb b (hmem hbc)).1
  · obtain ⟨b, c, hbc, -, hx, hb⟩ := (h.live_iff hd).mp hi
    rw [hone hx hk, hb, hbits, toNat_ofNat_of_lt (by have := (hltb b (hmem hbc)).1; omega)]
    simp [hmem hbc]
  · obtain ⟨b, c, hbc, hic, hx, hb⟩ := (h.live_iff hd).mp hi
    obtain ⟨b', c', hbc', hic', hx', hb'⟩ := (h.live_iff hd).mp hi'
    have hk0 := hone hx hk
    have hk0' := hone hx' hk'
    refine ⟨?_, hk0.trans hk0'.symm⟩
    rw [hk0, hk0', hb, hb'] at he
    have hbb := ofNat_inj (by have := (hltb b (hmem hbc)).1; omega)
      (by have := (hltb b' (hmem hbc')).1; omega) he
    simp only [List.nodup_cons, List.mem_cons, List.not_mem_nil, or_false, not_or, List.nodup_nil,
      not_false_eq_true, and_true] at hnodupb
    simp only [List.mem_cons, List.not_mem_nil, or_false, Prod.mk.injEq] at hbc hbc'
    rw [hic, hic', show c = c' by omega]
  · rw [hroot hi hdir, h.rooted.size, entries, h.rooted.blocks]
    show _ = _ * (List.flatMap _ (List.range 1)).length
    rw [List.range_one, List.flatMap_singleton]
    show _ = _ * (blockEntries s.rootSlots).length
    rw [hentries]
    rfl
  · have hx := hroot hi hdir
    subst hx
    rw [hone h.rooted.blocks hk]
    exact hterm

/-- With clean devices nothing of the old content is left but the modes of the first two
entries. -/
theorem independent_of_clean {d' : Device} (h : d.Room) (h' : d'.Room) (hname : name.length < 16)
    (hd : d.Clean) (hd' : d'.Clean)
    (hmode : ∀ j, j < 2 → dirMode (d.vol.block 0) j = dirMode (d'.vol.block 0) j) :
    Independent d d' name := by
  obtain ⟨s, hrun⟩ := init_ok h hd hname
  obtain ⟨s', hrun'⟩ := init_ok h' hd' hname
  obtain ⟨b₀, b₁, b₂, c₀, c₁, c₂, j₁, j₂, hmade⟩ := of_init h hname hrun
  obtain ⟨b₀', b₁', b₂', c₀', c₁', c₂', j₁', j₂', hmade'⟩ := of_init h' hname hrun'
  obtain ⟨rfl, rfl, rfl, rfl, rfl, rfl⟩ := hmade.same_numbers hmade' hd hd'
  have hsame : listing d' name c₀ c₁ c₂ = listing d name c₀ c₁ c₂ := by
    rw [listing, listing, hmode 0 (by decide), hmode 1 (by decide)]
  obtain ⟨-, hhello, -, hlabel⟩ := of_helloStr
  obtain ⟨-, hltb, -⟩ := hmade.blocks.spec (by decide)
  obtain ⟨-, hlti, -⟩ := hmade.inodes.spec (by decide)
  refine ⟨s, s', listing d name c₀ c₁ c₂, hrun, hrun', hmade.formatted hd hname, ?_, ?_, ?_, ?_⟩
  · rw [← hsame]
    exact hmade'.formatted hd' hname
  · rw [hmade.freeBlocks, hmade'.freeBlocks]
  · rw [hmade.freeInodes, hmade'.freeInodes]
  · intro e he hdot hddot buf len
    simp only [listing, List.mem_cons, List.not_mem_nil, or_false] at he
    rcases he with rfl | rfl | rfl | rfl
    · exact absurd rfl hdot
    · exact absurd rfl hddot
    · exact readFile_congr hmade.rooted.room hmade'.rooted.room
        (isInode_ofNat (hlti c₁ (by simp)).1)
        (isBlock_ofNat (hltb b₁ (by simp)).1) hmade.hello hmade'.hello hhello buf len
    · exact readFile_congr hmade.rooted.room hmade'.rooted.room
        (isInode_ofNat (hlti c₂ (by simp)).1)
        (isBlock_ofNat (hltb b₂ (by simp)).1) hmade.label hmade'.label hlabel buf len

end Listing

/-! ## What has to be empty -/

theorem eq_zero_of_card {m : Block} (h : m.used.card = 0) : m = .zero := by
  refine Bytes.ext_bit fun l => ?_
  rw [bit_zero]
  by_contra hl
  have hmem := Bytes.mem_used.mpr (eq_true_of_ne_false hl)
  rw [Finset.card_eq_zero.mp h] at hmem
  exact absurd hmem (Finset.notMem_empty l)

/-- A block lists the entries of different slots. -/
theorem card_le_length {b : Block} {js : Finset Nat}
    (h : ∀ j ∈ js, j < dirAmut ∧ dirInode b j ≠ 0) :
    js.card ≤ (blockEntries b).length := by
  have hlen : (blockEntries b).length =
      ((List.range dirAmut).filter fun j => dirInode b j ≠ 0).length := by
    unfold blockEntries
    induction List.range dirAmut with
    | nil => rfl
    | cons j js ih =>
      by_cases hj : dirInode b j = 0
      · rw [List.filterMap_cons_none (slot_eq_none.mpr hj), List.filter_cons_of_neg (by simp [hj]),
          ih]
      · rw [List.filterMap_cons_some (slot_of_ne hj), List.filter_cons_of_pos (by simp [hj]),
          List.length_cons, List.length_cons, ih]
  have hsub : js ⊆ ((List.range dirAmut).filter fun j => dirInode b j ≠ 0).toFinset :=
      fun j hj => by
    obtain ⟨hlt, hne⟩ := h j hj
    simp [hlt, hne]
  rw [hlen]
  exact (Finset.card_le_card hsub).trans (List.toFinset_card_le _)

/-- A directory of one block whose list ends has no more entries than the list. -/
theorem Lists.length_le {s : Fs} {n : Nat} {es : List Entry} (h : Lists s s.currentDir es)
    (hs : Rooted s n) : (blockEntries s.rootSlots).length ≤ es.length := by
  obtain ⟨s', hread⟩ := h es.length
  have hone : (s.dev.vol.inode s.currentDir).blocks.toNat = 1 := by
    rw [hs.blocks]
    rfl
  rw [List.getElem?_eq_none le_rfl, readdir, rdInd_ok hs.room hs.root.1, ok_bind] at hread
  simp only [hone] at hread
  rw [readdirBlocks, inBounds_bind (by decide), rdDir_ok (by exact hs.room) hs.block, ok_bind]
    at hread
  rcases blockScan_spec s.rootSlots es.length 0 with ⟨c, k, e, hscan, -⟩ | ⟨hle, -⟩
  · rw [Nat.zero_add, Nat.add_comm, Fs.rootSlots] at hscan
    simp only [hscan] at hread
    obtain ⟨_, -, hret⟩ := bind_eq_ok.mp hread
    cases hret
  · exact hle

section Necessary

variable {d : Device} {name : CStr} {s : Fs} {es : List Entry} {b₀ b₁ b₂ c₀ c₁ c₂ j₁ j₂ : Nat}

/-- The directory keeps what block 0 had behind the first two slots. -/
theorem Made.used_slots (h : Made d name s b₀ b₁ b₂ c₀ c₁ c₂ j₁ j₂) (hname : name.length < 16)
    {j : Nat} (hj : 2 ≤ j) (hj16 : j < dirAmut) (hne : dirInode (d.vol.block 0) j ≠ 0) :
    ∃ js : Finset Nat, js.card = 5 ∧ ∀ i ∈ js, i < dirAmut ∧ dirInode s.rootSlots i ≠ 0 := by
  obtain ⟨b, hfind₁, hfill₁, hfind₂, hfill₂⟩ := h.slots
  obtain ⟨-, hlti, -⟩ := h.inodes.spec (by decide)
  have hc₀ := (isInode_ofNat (hlti c₀ (by simp)).1).ne_zero
  have hc₁ := (isInode_ofNat (hlti c₁ (by simp)).1).ne_zero
  have hc₂ := (isInode_ofNat (hlti c₂ (by simp)).1).ne_zero
  obtain ⟨hj₁, hzero₁⟩ := of_firstFree hfind₁
  obtain ⟨hj₂, hzero₂⟩ := of_firstFree hfind₂
  obtain ⟨b', hok₁, hsame₁, hinode₁, -⟩ := fillEntry_ok
    (rootBlock (d.vol.block 0) (.ofNat (c₀ + 1))) hj₁ (.ofNat (c₁ + 1))
    fileMode (show (CStr.lit "hello.cpp").length < 20 by decide)
  rw [hfill₁] at hok₁
  cases hok₁
  obtain ⟨b', hok₂, hsame₂, hinode₂, -⟩ := fillEntry_ok b hj₂ (.ofNat (c₂ + 1))
    fileMode (show (name.append (.lit ".txt")).length < 20 by rw [length_append]; omega)
  rw [hfill₂] at hok₂
  cases hok₂
  -- the slots that were taken before the first file, and before the second
  have hroot : ∀ i, i < 2 ∨ i = j →
      dirInode (rootBlock (d.vol.block 0) (.ofNat (c₀ + 1))) i ≠ 0 := by
    rintro i (hi | rfl)
    · rwa [dirInode_rootBlock _ _ hi]
    · rwa [rootBlock_free hj]
  have hfirst : ∀ i, i < 2 ∨ i = j → i ≠ j₁ := fun i hi he => hroot i hi (he ▸ hzero₁)
  have hb : ∀ i, i < 2 ∨ i = j ∨ i = j₁ → dirInode b i ≠ 0 := by
    intro i hi
    by_cases he : i = j₁
    · rwa [he, hinode₁]
    · rw [hsame₁.dirInode he]
      exact hroot i (by omega)
  have hsecond : ∀ i, i < 2 ∨ i = j ∨ i = j₁ → i ≠ j₂ := fun i hi he => hb i hi (he ▸ hzero₂)
  have hs : ∀ i, i < 2 ∨ i = j ∨ i = j₁ ∨ i = j₂ → dirInode s.rootSlots i ≠ 0 := by
    intro i hi
    by_cases he : i = j₂
    · rwa [he, hinode₂]
    · rw [hsame₂.dirInode he]
      exact hb i (by omega)
  have h0 := hfirst 0 (by omega)
  have h1 := hfirst 1 (by omega)
  have h2 := hfirst j (by omega)
  have h3 := hsecond 0 (by omega)
  have h4 := hsecond 1 (by omega)
  have h5 := hsecond j (by omega)
  have h6 := hsecond j₁ (by omega)
  refine ⟨{0, 1, j, j₁, j₂}, ?_, fun i hi => ?_⟩
  · have hnotMem : ∀ {i : Nat} {js : Finset Nat}, (∀ l ∈ js, i ≠ l) → i ∉ js := fun hl hmem =>
      hl _ hmem rfl
    rw [Finset.card_insert_of_notMem (hnotMem fun l hl => ?_),
      Finset.card_insert_of_notMem (hnotMem fun l hl => ?_),
      Finset.card_insert_of_notMem (hnotMem fun l hl => ?_),
      Finset.card_insert_of_notMem (hnotMem fun l hl => ?_), Finset.card_singleton]
    all_goals
      simp only [Finset.mem_insert, Finset.mem_singleton] at hl
      omega
  · simp only [Finset.mem_insert, Finset.mem_singleton] at hi
    refine ⟨?_, hs i (by omega)⟩
    unfold dirAmut at *
    omega

/-- The counters and the listing show the old bitmaps and the old entries. -/
theorem Formatted.clean (h : Formatted s name es) (hm : Made d name s b₀ b₁ b₂ c₀ c₁ c₂ j₁ j₂)
    (hname : name.length < 16) : d.Clean := by
  obtain ⟨-, -, -, hcard⟩ := hm.blocks.spec (by decide)
  obtain ⟨-, -, -, hcard'⟩ := hm.inodes.spec (by decide)
  have hlen : es.length = 4 := by
    have hperm := h.names.length_eq
    rwa [List.length_map] at hperm
  refine ⟨eq_zero_of_card ?_, eq_zero_of_card ?_, fun j hj hj16 => ?_⟩
  · have hcount := h.freeBlocks
    rw [Counts, hcard, hm.freeBlocks, show (4093 : UInt16).toNat = 4093 from rfl] at hcount
    simp only [List.length_cons, List.length_nil] at hcount
    omega
  · have hcount := h.freeInodes
    rw [Counts, hcard', hm.freeInodes, show (4093 : UInt16).toNat = 4093 from rfl] at hcount
    simp only [List.length_cons, List.length_nil] at hcount
    omega
  · by_contra hne
    obtain ⟨js, hjs, hused⟩ := hm.used_slots hname hj hj16 hne
    have hle := card_le_length hused
    have hlist := h.lists.length_le hm.rooted
    omega

theorem Lists.unique {es' : List Entry} {i : UInt32} (h : Lists s i es) (h' : Lists s i es') :
    es = es' := by
  refine List.ext_getElem? fun k => ?_
  obtain ⟨t, hread⟩ := h k
  obtain ⟨t', hread'⟩ := h' k
  exact congrArg Prod.fst (Except.ok.inj (hread.symm.trans hread'))

end Necessary

theorem clean_of_independent {d d' : Device} {name : CStr} (h : d.Room) (h' : d'.Room)
    (hname : name.length < 16) (hi : Independent d d' name) : d.Clean ∧ d'.Clean ∧
      ∀ j, j < 2 → dirMode (d.vol.block 0) j = dirMode (d'.vol.block 0) j := by
  obtain ⟨s, s', es, hrun, hrun', hf, hf', -⟩ := hi
  obtain ⟨b₀, b₁, b₂, c₀, c₁, c₂, j₁, j₂, hmade⟩ := of_init h hname hrun
  obtain ⟨b₀', b₁', b₂', c₀', c₁', c₂', j₁', j₂', hmade'⟩ := of_init h' hname hrun'
  have hd := hf.clean hmade hname
  have hd' := hf'.clean hmade' hname
  have hes := hf.lists.unique (hmade.formatted hd hname).lists
  have hes' := hf'.lists.unique (hmade'.formatted hd' hname).lists
  rw [hes] at hes'
  simp only [listing, List.cons.injEq, Entry.mk.injEq] at hes'
  refine ⟨hd, hd', fun j hj => ?_⟩
  obtain rfl | rfl : j = 0 ∨ j = 1 := by omega
  · exact hes'.1.2.2
  · exact hes'.2.1.2.2

/-- `ext2_init` makes the same of two devices exactly if both bitmaps are empty on each, block 0
has no entries behind the first two slots, and these have the same modes. -/
theorem independent_iff {d d' : Device} {name : CStr} (h : d.Room) (h' : d'.Room)
    (hname : name.length < 16) : Independent d d' name ↔ d.Clean ∧ d'.Clean ∧
      ∀ j, j < 2 → dirMode (d.vol.block 0) j = dirMode (d'.vol.block 0) j :=
  ⟨clean_of_independent h h' hname, fun hc =>
    independent_of_clean h h' hname hc.1 hc.2.1 hc.2.2⟩

/-- Behind block 0 the device holds what somebody left there. -/
def staleBlocks : Device := ⟨rdSize, fun k => if k < 264704 then 0 else 0xff⟩

theorem staleBlocks_load {n o : Nat} (h : o + n ≤ 264704) :
    (load staleBlocks.data o : Bytes n) = .zero := by
  funext i
  have hi := i.isLt
  show (if o + i.val < 264704 then (0 : UInt8) else 0xff) = 0
  exact if_pos (by omega)

theorem staleBlocks_block : staleBlocks.vol.block 0 = .zero := by
  rw [Device.block_of_isBlock (by decide), Device.blockAt, toNat_blkOffset (by decide)]
  exact staleBlocks_load (by decide)

theorem independent_iff_staleBlocks :
    Independent (.zero rdSize) staleBlocks (.lit "ramdisk1") := by
  have hclean : staleBlocks.Clean := by
    refine ⟨staleBlocks_load (by decide), staleBlocks_load (by decide), fun j hj hj16 => ?_⟩
    rw [staleBlocks_block]
    exact (clean_zero rdSize).slots j hj hj16
  have hroom : staleBlocks.Room := room_rdSize
  refine (independent_iff room_rdSize hroom (by decide)).mpr ⟨clean_zero _, hclean, fun j _ => ?_⟩
  rw [staleBlocks_block, vol_zero_block]

/-- One byte of the block bitmap is left from another use of the memory. -/
def staleMap : Device := ⟨rdSize, fun k => if k = 1024 then 0xff else 0⟩

theorem staleMap_depends : ¬Independent (.zero rdSize) staleMap (.lit "ramdisk1") := by
  intro h
  have hroom : staleMap.Room := room_rdSize
  have hclean := (clean_of_independent room_rdSize hroom (by decide) h).2.1.blockMap
  have hbyte := congrArg (fun m : Block => m.get 0) hclean
  exact absurd hbyte (by decide)

end OsWorkbench.Ext2
