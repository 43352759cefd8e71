import OsWorkbench.Ext2.Oversize

/-!
# Reading a file

The inner loops of `ext2_read` run up to the end of the file and not to the end of the block.
A request gets its bytes exactly when they end in the block where they begin.
-/

namespace OsWorkbench.Ext2

/-- The bytes that the blocks of an inode hold, one block after the other. -/
def fileByte (v : Vol) (x : Inode) (p : Nat) : UInt8 :=
  (v.block (x.blk (p / blkSize))).get (p % blkSize)

/-- The blocks of the inode are those that its size takes. -/
structure Sized (x : Inode) : Prop extends HasBlocks x where
  exact : x.blocks.toNat = (x.size.toNat + (blkSize - 1)) / blkSize

/-- `ext2_read` returns the number of bytes that are left from `offset` on, at most `len`, and
stores these bytes, the terminator of `sprintf` and nothing else. -/
def ReadsRight (s : Fs) (r : UInt32) (offset : UInt64) (buf : Nat → UInt8) (len : UInt32) : Prop :=
  ∃ n buf' s', read s r offset buf len = .ok (n, buf', s') ∧ s'.dev = s.dev ∧
    n = min len.toNat ((s.dev.vol.inode r).size.toNat - offset.toNat) ∧
    (∀ k, k < n → buf' k = fileByte s.dev.vol (s.dev.vol.inode r) (offset.toNat + k)) ∧
    ∀ k, n < k → buf' k = buf k

/-- Nothing is asked for, or the bytes lie in one block, or the offset lies behind the last
block. -/
def WithinBlock (x : Inode) (offset len : Nat) : Prop :=
  len = 0 ∨
    (offset ≤ x.size.toNat ∧ offset % blkSize + min len (x.size.toNat - offset) ≤ blkSize) ∨
    (x.size.toNat < offset ∧ x.blocks.toNat ≤ offset / blkSize % 2 ^ 32)

/-! ## The loop over the bytes of a block -/

section Bytes

variable {b : Block} {size len first n j ret : Nat} {offset : UInt64} {buf : Nat → UInt8}

/-- When the bytes end in the block. The loop stops by its tests, or at the end of the file. -/
theorem readBytes_ok (buf : Nat → UInt8) {m : Nat} (ho : offset.toNat ≤ size)
    (hsize : size < 2 ^ 32)
    (hm : m = min len (size - offset.toNat)) (hfirst : first + m ≤ blkSize) (hj : j ≤ m)
    (hn : m ≤ j + n) :
    ∃ done buf', readBytes b size len offset first n j j buf = .ok (done, m, buf') ∧
      (done = false → j + n = m) ∧
      (∀ k, j ≤ k → k < m → buf' k = b.get (k + first)) ∧ (∀ k, k < j → buf' k = buf k) ∧
      ∀ k, m < k → buf' k = buf k := by
  induction n generalizing j buf with
  | zero =>
    obtain rfl : j = m := by omega
    exact ⟨false, buf, rfl, fun _ => rfl, fun k hk hk' => by omega, fun _ _ => rfl, fun _ _ => rfl⟩
  | succ n ih =>
    rw [readBytes]
    by_cases hjm : j = m
    · have hstop : j = len ∨ (j + offset.toNat) % 2 ^ 64 = size := by omega
      rw [if_pos hstop, hjm]
      exact ⟨true, buf, rfl, fun h => absurd h (by decide), fun k hk hk' => by omega,
        fun _ _ => rfl,
        fun _ _ => rfl⟩
    · have hgo : ¬(j = len ∨ (j + offset.toNat) % 2 ^ 64 = size) := by omega
      have hin : j + first < blkSize := by omega
      rw [if_neg hgo, inBounds_bind hin]
      obtain ⟨done, buf', hrun, hdone, hread, hold, hrest⟩ :=
        ih (sprintfChar buf j (b.get (j + first))) (j := j + 1) (by omega) (by omega)
      refine ⟨done, buf', hrun, fun h => by have := hdone h; omega, fun k hk hk' => ?_,
        fun k hk => ?_, fun k hk => ?_⟩
      · rcases Nat.eq_or_lt_of_le hk with rfl | hlt
        · rw [hold j (Nat.lt_succ_self j), sprintfChar, Function.update_of_ne (by omega),
            Function.update_self]
        · exact hread k hlt hk'
      · rw [hold k (by omega), sprintfChar, Function.update_of_ne (by omega),
          Function.update_of_ne (by omega)]
      · rw [hrest k hk, sprintfChar, Function.update_of_ne (by omega),
          Function.update_of_ne (by omega)]

/-- When they do not, the loop leaves the block. -/
theorem readBytes_error {m : Nat} (ho : offset.toNat ≤ size) (hsize : size < 2 ^ 32)
    (hm : m = min len (size - offset.toNat)) (hfirst : blkSize < first + m)
    (hj : j + first ≤ blkSize)
    (hn : blkSize < first + j + n) :
    readBytes b size len offset first n j j buf = .error .badAccess := by
  induction n generalizing j buf with
  | zero => omega
  | succ n ih =>
    have hgo : ¬(j = len ∨ (j + offset.toNat) % 2 ^ 64 = size) := by omega
    rw [readBytes, if_neg hgo]
    by_cases hin : j + first < blkSize
    · rw [inBounds_bind hin]
      exact ih (by omega) (by omega)
    · rw [inBounds_neg hin]
      rfl

theorem le_readBytes {done : Bool} {ret' : Nat} {buf' : Nat → UInt8}
    (h : readBytes b size len offset first n j ret buf = .ok (done, ret', buf')) : ret ≤ ret' := by
  induction n generalizing j ret buf with
  | zero =>
    cases h
    exact le_rfl
  | succ n ih =>
    rw [readBytes] at h
    split at h
    · cases h
      exact le_rfl
    · obtain ⟨_, -, h⟩ := bind_eq_ok.mp h
      exact (Nat.le_succ ret).trans (ih h)

/-- Behind the end of the file the tests fail, and the loop stores a byte. -/
theorem one_le_readBytes {done : Bool} {ret' : Nat} {buf' : Nat → UInt8} (hn : n ≠ 0)
    (hlen : len ≠ 0)
    (ho : offset.toNat ≠ size)
    (h : readBytes b size len offset first n j 0 buf = .ok (done, ret', buf')) : 1 ≤ ret' := by
  obtain ⟨n, rfl⟩ := Nat.exists_eq_succ_of_ne_zero hn
  have hlt := offset.toNat_lt
  have hgo : ¬(0 = len ∨ (0 + offset.toNat) % 2 ^ 64 = size) := by omega
  rw [readBytes, if_neg hgo] at h
  obtain ⟨_, -, h⟩ := bind_eq_ok.mp h
  exact le_readBytes h

end Bytes

/-! ## The loop over the blocks -/

section Blocks

variable {s s' : Fs} {len skip first n i ret : Nat} {offset : UInt64} {buf buf' : Nat → UInt8}

theorem le_readBlocks {ret' : Nat}
    (h : readBlocks len offset skip first n i ret buf s = .ok (ret', buf', s')) : ret ≤ ret' := by
  induction n generalizing i ret buf s with
  | zero =>
    cases h
    exact le_rfl
  | succ n ih =>
    obtain ⟨_, -, h⟩ := bind_eq_ok.mp h
    obtain ⟨_, -, h⟩ := bind_eq_ok.mp h
    obtain ⟨r, hr, h⟩ := bind_eq_ok.mp h
    have hle := le_readBytes hr
    split at h
    · cases h
      exact hle
    · exact hle.trans (ih h)

/-- Without bytes to read, every block is read and nothing is stored. -/
theorem readBlocks_none (hroom : s.dev.Room) (hb : HasBlocks s.ind)
    (hn : i + n ≤ s.ind.blocks.toNat) :
    ∃ s', readBlocks 0 offset skip first n i 0 buf s = .ok (0, buf, s') ∧ s'.dev = s.dev := by
  induction n generalizing i s with
  | zero => exact ⟨s, rfl, rfl⟩
  | succ n ih =>
    have hi : i < ext2NBlocks := by have := hb.le; omega
    rw [readBlocks, inBounds_bind hi, rdDatablock_ok hroom (hb.isBlock i (by omega)), ok_bind]
    generalize sub32 _ _ = c
    have hbytes : ∃ done, readBytes (s.dev.vol.block (s.ind.blk i)) s.ind.size.toNat 0 offset
        (if i = skip then first else 0) c 0 0 buf = .ok (done, 0, buf) := by
      cases c with
      | zero => exact ⟨false, rfl⟩
      | succ c => exact ⟨true, by rw [readBytes, if_pos (.inl rfl)]⟩
    obtain ⟨done, hbytes⟩ := hbytes
    dsimp only
    rw [hbytes, ok_bind]
    cases done with
    | true => exact ⟨_, rfl, rfl⟩
    | false =>
      rw [if_neg Bool.false_ne_true]
      exact ih (s := { s with datablockbuf := s.dev.vol.block (s.ind.blk i) }) hroom hb
        (by show i + 1 + n ≤ s.ind.blocks.toNat; omega)

end Blocks

/-! ## The call -/

section Read

variable {s : Fs} {r len : UInt32} {offset : UInt64} {buf : Nat → UInt8}

theorem first_offset (n : Nat) :
    sub32 (n % 2 ^ 32) (n / blkSize % 2 ^ 32 * blkSize % 2 ^ 32) = n % blkSize := by
  unfold sub32 blkSize
  omega

theorem read_eq (h : s.dev.Room) (hr : IsInode r) :
    read s r offset buf len =
      readBlocks len.toNat offset (offset.toNat / blkSize % 2 ^ 32) (offset.toNat % blkSize)
        ((s.dev.vol.inode r).blocks.toNat - offset.toNat / blkSize % 2 ^ 32)
        (offset.toNat / blkSize % 2 ^ 32) 0 buf { s with ind := s.dev.vol.inode r } := by
  rw [read, rdInd_ok h hr, ok_bind, first_offset]

/-- The first block of a read. -/
theorem readBlocks_first (h : s.dev.Room) (hx : HasBlocks (s.dev.vol.inode r)) {skip first n : Nat}
    (hlt : skip < (s.dev.vol.inode r).blocks.toNat) :
    readBlocks len.toNat offset skip first (n + 1) skip 0 buf { s with ind := s.dev.vol.inode r } =
    (do
      let q ← readBytes (s.dev.vol.block ((s.dev.vol.inode r).blk skip))
        (s.dev.vol.inode r).size.toNat len.toNat offset first
        (sub32 (s.dev.vol.inode r).size.toNat (skip * blkSize % 2 ^ 32)) 0 0 buf
      if q.1 then return (q.2.1, q.2.2, { s with
        ind := s.dev.vol.inode r
        datablockbuf := s.dev.vol.block ((s.dev.vol.inode r).blk skip) })
      else readBlocks len.toNat offset skip first n (skip + 1) q.2.1 q.2.2 { s with
        ind := s.dev.vol.inode r
        datablockbuf := s.dev.vol.block ((s.dev.vol.inode r).blk skip) }) := by
  have hi : skip < ext2NBlocks := hlt.trans_le hx.le
  rw [readBlocks, inBounds_bind hi]
  have hread : rdDatablock { s with ind := s.dev.vol.inode r } ((s.dev.vol.inode r).blk skip) =
      .ok { s with
        ind := s.dev.vol.inode r
        datablockbuf := s.dev.vol.block ((s.dev.vol.inode r).blk skip) } :=
    rdDatablock_ok h (hx.isBlock skip hlt)
  rw [hread, ok_bind]
  simp only [if_pos]

theorem read_right (h : s.dev.Room) (hr : IsInode r) (hx : Sized (s.dev.vol.inode r))
    (hw : WithinBlock (s.dev.vol.inode r) offset.toNat len.toNat) :
    ReadsRight s r offset buf len := by
  have hsize := (s.dev.vol.inode r).size.toNat_lt
  have hexact := hx.exact
  unfold ReadsRight
  rw [read_eq h hr]
  rcases hw with hlen | ⟨ho, hin⟩ | ⟨ho, hbehind⟩
  · rw [hlen]
    by_cases hlt : offset.toNat / blkSize % 2 ^ 32 ≤ (s.dev.vol.inode r).blocks.toNat
    · obtain ⟨s', hrun, hdev⟩ := readBlocks_none (s := { s with ind := s.dev.vol.inode r }) h hx.1
        (i := offset.toNat / blkSize % 2 ^ 32) (n := _) (Nat.add_sub_of_le hlt).le
      exact ⟨0, buf, s', hrun, hdev, (Nat.zero_min _).symm,
        fun k hk => absurd hk (Nat.not_lt_zero k),
        fun _ _ => rfl⟩
    · rw [Nat.sub_eq_zero_of_le (Nat.le_of_not_le hlt)]
      exact ⟨0, buf, _, rfl, rfl, (Nat.zero_min _).symm, fun k hk => absurd hk (Nat.not_lt_zero k),
        fun _ _ => rfl⟩
  · have hskip : offset.toNat / blkSize % 2 ^ 32 = offset.toNat / blkSize := by
      unfold blkSize
      omega
    rw [hskip]
    by_cases hlt : offset.toNat / blkSize < (s.dev.vol.inode r).blocks.toNat
    · obtain ⟨n, hn⟩ : ∃ n, (s.dev.vol.inode r).blocks.toNat - offset.toNat / blkSize = n + 1 :=
        ⟨_, (Nat.sub_add_cancel (Nat.sub_pos_of_lt hlt)).symm⟩
      have hrest :
        sub32 (s.dev.vol.inode r).size.toNat (offset.toNat / blkSize * blkSize % 2 ^ 32) =
          (s.dev.vol.inode r).size.toNat - offset.toNat / blkSize * blkSize := by
        unfold sub32 blkSize at *
        omega
      rw [hn, readBlocks_first h hx.1 hlt, hrest]
      obtain ⟨done, buf', hrun, hdone, hbytes, -, hkeep⟩ := readBytes_ok buf (j := 0)
        (b := s.dev.vol.block ((s.dev.vol.inode r).blk (offset.toNat / blkSize)))
        (n := (s.dev.vol.inode r).size.toNat - offset.toNat / blkSize * blkSize) ho hsize rfl hin
        (Nat.zero_le _) (by unfold blkSize at *; omega)
      rw [hrun, ok_bind]
      have hread : ∀ k, k < min len.toNat ((s.dev.vol.inode r).size.toNat - offset.toNat) →
          buf' k = fileByte s.dev.vol (s.dev.vol.inode r) (offset.toNat + k) := by
        intro k hk
        rw [hbytes k (Nat.zero_le k) hk, fileByte,
          show (offset.toNat + k) / blkSize = offset.toNat / blkSize by unfold blkSize at *; omega,
          show (offset.toNat + k) % blkSize = k + offset.toNat % blkSize by
            unfold blkSize at *; omega]
      cases done with
      | true => exact ⟨_, buf', _, rfl, rfl, rfl, hread, hkeep⟩
      | false =>
        -- the file ends here, and so do its blocks
        have hend := hdone rfl
        obtain rfl : n = 0 := by unfold blkSize at *; omega
        exact ⟨_, buf', _, rfl, rfl, rfl, hread, hkeep⟩
    · rw [Nat.sub_eq_zero_of_le (Nat.le_of_not_lt hlt)]
      have hzero : min len.toNat ((s.dev.vol.inode r).size.toNat - offset.toNat) = 0 := by
        unfold blkSize at *
        omega
      exact ⟨0, buf, _, rfl, rfl, hzero.symm, fun k hk => absurd hk (Nat.not_lt_zero k),
        fun _ _ => rfl⟩
  · rw [Nat.sub_eq_zero_of_le hbehind]
    exact ⟨0, buf, _, rfl, rfl, by omega, fun k hk => absurd hk (Nat.not_lt_zero k), fun _ _ => rfl⟩

/-- A call that returns the right number leaves no block halfway. -/
theorem withinBlock_of_read {n : Nat} {buf' : Nat → UInt8} {s' : Fs} (h : s.dev.Room)
    (hr : IsInode r) (hx : Sized (s.dev.vol.inode r))
    (hrun : read s r offset buf len = .ok (n, buf', s'))
    (hcount : n = min len.toNat ((s.dev.vol.inode r).size.toNat - offset.toNat)) :
    WithinBlock (s.dev.vol.inode r) offset.toNat len.toNat := by
  by_contra hw
  have hsize := (s.dev.vol.inode r).size.toNat_lt
  have hexact := hx.exact
  obtain ⟨hlen, hw⟩ := not_or.mp hw
  obtain ⟨hin, hbehind⟩ := not_or.mp hw
  rw [read_eq h hr] at hrun
  by_cases ho : offset.toNat ≤ (s.dev.vol.inode r).size.toNat
  · have hcross := not_le.mp fun hle => hin ⟨ho, hle⟩
    have hskip : offset.toNat / blkSize % 2 ^ 32 = offset.toNat / blkSize := by
      unfold blkSize
      omega
    have hlt : offset.toNat / blkSize < (s.dev.vol.inode r).blocks.toNat := by
      unfold blkSize at *
      omega
    obtain ⟨n, hn⟩ : ∃ n, (s.dev.vol.inode r).blocks.toNat - offset.toNat / blkSize = n + 1 :=
      ⟨_, (Nat.sub_add_cancel (Nat.sub_pos_of_lt hlt)).symm⟩
    have hrest : sub32 (s.dev.vol.inode r).size.toNat (offset.toNat / blkSize * blkSize % 2 ^ 32) =
        (s.dev.vol.inode r).size.toNat - offset.toNat / blkSize * blkSize := by
      unfold sub32 blkSize at *
      omega
    rw [hskip, hn, readBlocks_first h hx.1 hlt, hrest] at hrun
    rw [readBytes_error ho hsize rfl hcross (by unfold blkSize; omega)
      (by unfold blkSize at *; omega)] at hrun
    cases hrun
  · have hlt := not_le.mp fun hle => hbehind ⟨not_le.mp ho, hle⟩
    obtain ⟨c, hc⟩ :
        ∃ c, (s.dev.vol.inode r).blocks.toNat - offset.toNat / blkSize % 2 ^ 32 = c + 1 :=
      ⟨_, (Nat.sub_add_cancel (Nat.sub_pos_of_lt hlt)).symm⟩
    have hrest : sub32 (s.dev.vol.inode r).size.toNat
        (offset.toNat / blkSize % 2 ^ 32 * blkSize % 2 ^ 32) ≠ 0 := by
      unfold sub32 blkSize at *
      omega
    rw [hc, readBlocks_first h hx.1 hlt] at hrun
    obtain ⟨⟨done, ret, buf₁⟩, hbytes, hrun⟩ := bind_eq_ok.mp hrun
    have hone := one_le_readBytes hrest hlen (by omega) hbytes
    have hle : 1 ≤ n := by
      cases done with
      | true =>
        cases hrun
        exact hone
      | false =>
        rw [if_neg Bool.false_ne_true] at hrun
        exact hone.trans (le_readBlocks hrun)
    omega

/-- In every state, for every file, offset and length. -/
theorem read_right_iff (buf : Nat → UInt8) (h : s.dev.Room) (hr : IsInode r)
    (hx : Sized (s.dev.vol.inode r)) :
    ReadsRight s r offset buf len ↔ WithinBlock (s.dev.vol.inode r) offset.toNat len.toNat :=
  ⟨fun ⟨_, _, _, hrun, _, hcount, _⟩ => withinBlock_of_read h hr hx hrun hcount,
    read_right h hr hx⟩

end Read

theorem HoldsText.sized {v : Vol} {i n : UInt32} {text : CStr} (h : HoldsText v i n text)
    (hn : IsBlock n) (hpos : 0 < text.length) (hle : text.length ≤ 512) : Sized (v.inode i) := by
  have hblocks : (v.inode i).blocks.toNat = 1 := by
    rw [h.blocks]
    rfl
  refine ⟨⟨by rw [hblocks]; decide, fun k hk => ?_⟩, ?_⟩
  · obtain rfl : k = 0 := by omega
    rw [h.blk]
    exact hn
  · rw [hblocks, h.size, toNat_length hle]
    unfold blkSize
    omega

/-- On a new file system the first file is `hello.cpp`. -/
theorem init_file : ∃ s r, init (.zero rdSize) (.lit "ramdisk1") = .ok s ∧ Consistent s ∧
    s.dev.vol.Live r ∧ (s.dev.vol.inode r).mode = fileMode ∧ Sized (s.dev.vol.inode r) ∧
    (s.dev.vol.inode r).size.toNat = helloStr.length ∧ s.gdt.freeBlocksCount = 4093 := by
  have hname : (CStr.lit "ramdisk1").length < 16 := by decide
  obtain ⟨hpos, hle, -, -⟩ := of_helloStr
  obtain ⟨s, hrun⟩ := init_ok room_rdSize (clean_zero _) hname
  obtain ⟨b₀, b₁, b₂, c₀, c₁, c₂, j₁, j₂, hmade⟩ := of_init room_rdSize hname hrun
  obtain ⟨-, hlt, -⟩ := hmade.blocks.spec (by decide)
  have hb := isBlock_ofNat (hlt b₁ (by simp)).1
  exact ⟨s, .ofNat (c₁ + 1), hrun, hmade.consistent (clean_zero _) hname,
    (hmade.live_iff (clean_zero _)).mpr ⟨b₁, c₁, by simp, rfl, hmade.hello.blocks, hmade.hello.blk⟩,
    hmade.hello.mode, hmade.hello.sized hb hpos hle, by rw [hmade.hello.size, toNat_length hle],
    hmade.freeBlocks⟩

theorem read_right_iff_hello : ∃ s r, init (.zero rdSize) (.lit "ramdisk1") = .ok s ∧
    ReadsRight s r 10 (fun _ => 0) 100 := by
  obtain ⟨s, r, hrun, hcons, hlive, -, hsized, hsize, -⟩ := init_file
  refine ⟨s, r, hrun, (read_right_iff _ hcons.room hlive.1 hsized).mpr (.inr (.inl ?_))⟩
  rw [hsize]
  decide

end OsWorkbench.Ext2
