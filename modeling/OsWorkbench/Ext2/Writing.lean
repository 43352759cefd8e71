import OsWorkbench.Ext2.Reading
import OsWorkbench.Ext2.Resize

/-!
# Writing a file

`ext2_write` copies block by block, and its third loop, for the last of several blocks, counts
`k` up and `len - ret` down at the same time: of `m` bytes it copies half, rounded up. All the
rest of the call is as it should be: the size, the block list, the bitmap and the other files.
-/

namespace OsWorkbench.Ext2

/-! ## The loops over the bytes of a block -/

section Copy

variable {buf : Nat → UInt8} {len n k ret : Nat} {b : Block}

/-- The `c` bytes of the buffer from `ret` on are in the block from `k` on. -/
def Pasted (buf : Nat → UInt8) (b b' : Block) (k c ret : Nat) : Prop :=
  ∀ p, b'.get p = if k ≤ p ∧ p < k + c then buf (ret + (p - k)) else b.get p

theorem Pasted.zero : Pasted buf b b k 0 ret := fun p => by rw [if_neg (by omega)]

/-- The first byte, and the others after it. -/
theorem Pasted.succ {b' : Block} {c : Nat} (hk : k < blkSize)
    (h : Pasted buf (b.set k (buf ret)) b' (k + 1) c (ret + 1)) :
    Pasted buf b b' k (c + 1) ret := by
  intro p
  rw [h p]
  rcases eq_or_ne p k with rfl | hne
  · rw [if_neg (by omega), if_pos (by omega), Nat.sub_self, Nat.add_zero,
      Bytes.get_set_self (n := 512) b (buf ret) hk]
  · rw [Bytes.get_set_ne _ _ hne]
    by_cases hin : k + 1 ≤ p ∧ p < k + 1 + c
    · rw [if_pos hin, if_pos (by omega), show ret + 1 + (p - (k + 1)) = ret + (p - k) by omega]
    · rw [if_neg hin, if_neg (by omega)]

/-- The loop of the first block and of those in the middle. -/
theorem copyBlock_pasted (buf : Nat → UInt8) (len ret : Nat) (b : Block) (hn : blkSize ≤ k + n)
    (hk : k ≤ blkSize) (hret : ret ≤ len) :
    ∃ b', copyBlock buf len n k ret b = (ret + min (len - ret) (blkSize - k), b') ∧
      Pasted buf b b' k (min (len - ret) (blkSize - k)) ret := by
  induction n generalizing k ret b with
  | zero =>
    have hnone : min (len - ret) (blkSize - k) = 0 := by omega
    rw [hnone]
    exact ⟨b, rfl, .zero⟩
  | succ n ih =>
    rw [copyBlock]
    by_cases hgo : ret < len ∧ k < blkSize
    · obtain ⟨b', hrun, hpaste⟩ := ih (ret + 1) (b.set k (buf ret)) (k := k + 1)
        (by omega) (by omega) (by omega)
      have hcount : min (len - ret) (blkSize - k) =
          min (len - (ret + 1)) (blkSize - (k + 1)) + 1 := by omega
      rw [if_pos hgo, hrun, hcount]
      exact ⟨b', by rw [Nat.add_right_comm, Nat.add_assoc], .succ hgo.2 hpaste⟩
    · have hnone : min (len - ret) (blkSize - k) = 0 := by omega
      rw [if_neg hgo, hnone]
      exact ⟨b, rfl, .zero⟩

/-- The loop of the last block stops halfway. -/
theorem copyTail_pasted (buf : Nat → UInt8) (len ret : Nat) (b : Block) (hn : len - ret ≤ k + 2 * n)
    (hfit : len - ret + k ≤ 2 * blkSize) :
    ∃ b', copyTail buf len n k ret b = .ok (ret + (len - ret - k + 1) / 2, b') ∧
      Pasted buf b b' k ((len - ret - k + 1) / 2) ret := by
  induction n generalizing k ret b with
  | zero =>
    have hnone : (len - ret - k + 1) / 2 = 0 := by omega
    rw [hnone]
    exact ⟨b, rfl, .zero⟩
  | succ n ih =>
    rw [copyTail]
    by_cases hgo : k < len - ret
    · have hk : k < blkSize := by omega
      obtain ⟨b', hrun, hpaste⟩ := ih (ret + 1) (b.set k (buf ret)) (k := k + 1)
        (by omega) (by omega)
      have hcount : (len - ret - k + 1) / 2 = (len - (ret + 1) - (k + 1) + 1) / 2 + 1 := by omega
      rw [if_pos hgo, inBounds_bind hk, hrun, hcount]
      exact ⟨b', by rw [Nat.add_right_comm, Nat.add_assoc], .succ hk hpaste⟩
    · have hnone : (len - ret - k + 1) / 2 = 0 := by omega
      rw [if_neg hgo, hnone]
      exact ⟨b, rfl, .zero⟩

end Copy

/-! ## The loop over the blocks -/

/-- The bytes of a file after `ret` bytes of the buffer were stored from `offset` on. -/
def overlay (old buf : Nat → UInt8) (offset ret p : Nat) : UInt8 :=
  if offset ≤ p ∧ p < offset + ret then buf (p - offset) else old p

/-- The blocks of the loaded inode from number `n` on, up to `need`, hold the bytes `f` of the
file, and everything else is as it was. -/
structure Copied (s s' : Fs) (n need : Nat) (f : Nat → UInt8) : Prop where
  room : s'.dev.Room
  fs : s' = { s with datablockbuf := s'.datablockbuf, dev := s'.dev }
  vol : s'.dev.vol = { s.dev.vol with block := s'.dev.vol.block }
  bytes : ∀ j q, n ≤ j → j < need → q < blkSize →
    (s'.dev.vol.block (s.ind.blk j)).get q = f (j * blkSize + q)
  others : ∀ b, (∀ j, n ≤ j → j < need → s.ind.blk j ≠ b) → s'.dev.vol.block b = s.dev.vol.block b

theorem Copied.ind {s s' : Fs} {n need : Nat} {f : Nat → UInt8} (h : Copied s s' n need f) :
    s'.ind = s.ind := by rw [h.fs]

/-- The number of bytes that the loops store. -/
def stored (offset len : Nat) : Nat :=
  if offset % blkSize + len ≤ blkSize then len
  else len - ((offset + len - 1) % blkSize + 1) / 2

section Blocks

variable {s s₁ s' : Fs} {buf : Nat → UInt8} {len n need : Nat} {f : Nat → UInt8}

theorem Copied.refl (h : s.dev.Room) (hn : need ≤ n) : Copied s s n need f where
  room := h
  fs := rfl
  vol := rfl
  bytes j q hle hlt := by omega
  others _ _ := rfl

/-- One block, and those behind it. -/
theorem Copied.cons (hown : ∀ k k', k < need → k' < need → s.ind.blk k = s.ind.blk k' → k = k')
    (hn : n < need) (h : Copied s s₁ n (n + 1) f) (h' : Copied s₁ s' (n + 1) need f) :
    Copied s s' n need f := by
  have hind := h.ind
  refine ⟨h'.room, by rw [h'.fs, h.fs], by rw [h'.vol, h.vol], fun j q hle hlt hq => ?_,
    fun b hb => ?_⟩
  · rcases Nat.eq_or_lt_of_le hle with rfl | hlt'
    · rw [h'.others _ fun j hj hjn => by
        rw [hind]
        intro he
        have := hown _ _ hjn hlt he
        omega]
      exact h.bytes n q le_rfl (Nat.lt_succ_self n) hq
    · rw [← hind]
      exact h'.bytes j q hlt' hlt hq
  · rw [h'.others b fun j hj hjn => by
      rw [hind]
      exact hb j (by omega) hjn]
    exact h.others b fun j hj hjn => hb j hj (by omega)

/-- The file system after a block was written. -/
def Fs.putBlock (s : Fs) (b : UInt32) (x : Block) : Fs :=
  { s with datablockbuf := x, dev := s.dev.putBlock b x }

theorem Copied.one {b' : Block} (h : s.dev.Room) (hb : IsBlock (s.ind.blk n))
    (hf : ∀ q, q < blkSize → b'.get q = f (n * blkSize + q)) :
    Copied s (s.putBlock (s.ind.blk n) b') n (n + 1) f := by
  have hvol : (s.putBlock (s.ind.blk n) b').dev.vol = s.dev.vol.setBlock (s.ind.blk n) b' :=
    Device.vol_putBlock hb b'
  refine ⟨h, rfl, by rw [hvol]; rfl, fun j q hle hlt hq => ?_, fun b hne => ?_⟩
  · obtain rfl : j = n := by omega
    rw [hvol, Vol.setBlock]
    dsimp only
    rw [Function.update_self]
    exact hf q hq
  · rw [hvol, Vol.setBlock]
    exact Function.update_of_ne (Ne.symm (hne n le_rfl (Nat.lt_succ_self n))) ..

/-- One turn of the loop. -/
theorem writeBlocks_step {skip : Nat} {first i ret ret' : Nat} {b' : Block} (h : s.dev.Room)
    (hn : n < ext2NBlocks) (hb : IsBlock (s.ind.blk n))
    (hcopy : (if (n : Int) = skip then
        .ok (copyBlock buf len blkSize first ret (s.dev.vol.block (s.ind.blk n)))
      else if (n : Int) ≠ (need : Int) - 1 then
        .ok (copyBlock buf len blkSize 0 ret (s.dev.vol.block (s.ind.blk n)))
      else copyTail buf len (len - ret) 0 ret (s.dev.vol.block (s.ind.blk n)) :
        Except Fault (Nat × Block)) = .ok (ret', b')) :
    writeBlocks buf len skip need first (i + 1) n ret s =
      writeBlocks buf len skip need first i (n + 1) ret' (s.putBlock (s.ind.blk n) b') := by
  have hin : 0 ≤ (n : Int) ∧ (n : Int) < ext2NBlocks := by omega
  rw [writeBlocks, inBounds_bind hin, Int.toNat_natCast]
  dsimp only
  rw [rdDatablock_ok h hb, ok_bind]
  have hwrite : wrDatablock { s with datablockbuf := b' } (s.ind.blk n) =
      .ok (s.putBlock (s.ind.blk n) b') := wrDatablock_ok (by exact h) hb
  dsimp only
  split_ifs at hcopy ⊢
  all_goals
    rw [hcopy, ok_bind]
    dsimp only
    rw [hwrite, ok_bind]

/-- What was pasted into a block, as bytes of the file. -/
theorem Pasted.overlay {offset k c ret total : Nat} {x : Inode} {v : Vol} {b' : Block}
    (h : Pasted buf (v.block (x.blk n)) b' k c ret) (hpos : n * blkSize + k = offset + ret)
    (hlow : ret = 0 ∨ k = 0) (hhigh : ret + c = total ∨ blkSize ≤ k + c) (hle : ret + c ≤ total)
    {q : Nat} (hq : q < blkSize) :
    b'.get q = Ext2.overlay (fileByte v x) buf offset total (n * blkSize + q) := by
  rw [h q, Ext2.overlay, fileByte,
    show (n * blkSize + q) / blkSize = n by unfold blkSize at *; omega,
    show (n * blkSize + q) % blkSize = q by unfold blkSize at *; omega]
  by_cases hin : k ≤ q ∧ q < k + c
  · rw [if_pos hin, if_pos (by omega), show n * blkSize + q - offset = ret + (q - k) by omega]
  · rw [if_neg hin, if_neg (by omega)]

/-- What a block that is written leaves of the other bytes of the file. -/
theorem fileByte_putBlock (b' : Block) {p : Nat} (hb : IsBlock (s.ind.blk n))
    (hne : s.ind.blk (p / blkSize) ≠ s.ind.blk n) :
    fileByte (s.putBlock (s.ind.blk n) b').dev.vol s.ind p = fileByte s.dev.vol s.ind p := by
  have hvol : (s.putBlock (s.ind.blk n) b').dev.vol = s.dev.vol.setBlock (s.ind.blk n) b' :=
    Device.vol_putBlock hb b'
  rw [fileByte, hvol, Vol.setBlock]
  dsimp only
  rw [Function.update_of_ne hne, fileByte]

/-- The blocks behind the first. -/
theorem writeBlocks_rest (buf : Nat → UInt8) (first ret : Nat) {skip i offset total : Nat}
    (h : s.dev.Room)
    (hblk : ∀ k, k < need → IsBlock (s.ind.blk k))
    (hown : ∀ k k', k < need → k' < need → s.ind.blk k = s.ind.blk k' → k = k')
    (hle : need ≤ ext2NBlocks) (hskip : skip < n) (hi : n + i + 1 = need) (hret : ret ≤ len)
    (hpos : n * blkSize = offset + ret) (hlow : (need - 1) * blkSize < offset + len)
    (hhigh : offset + len ≤ need * blkSize)
    (htotal : total = len - (offset + len - (need - 1) * blkSize) / 2) :
    ∃ s', writeBlocks buf len skip need first (i + 1) n ret s = .ok (total, s') ∧
      ∀ f, (∀ p, n * blkSize ≤ p → p < need * blkSize →
        f p = overlay (fileByte s.dev.vol s.ind) buf offset total p) → Copied s s' n need f := by
  have hb := hblk n (by omega)
  have hn : n < ext2NBlocks := by omega
  have hnext : n * blkSize ≤ (n + 1) * blkSize := Nat.mul_le_mul_right _ (Nat.le_succ n)
  have hlast : (n + 1) * blkSize ≤ need * blkSize := Nat.mul_le_mul_right _ (by omega)
  have hin : ∀ q, q < blkSize → n * blkSize + q < need * blkSize := fun q hq => by
    rw [Nat.succ_mul] at hlast
    omega
  induction i generalizing n ret s with
  | zero =>
    have hcount : ret + (len - ret - 0 + 1) / 2 = total := by
      unfold blkSize at hpos hlow hhigh htotal
      omega
    have hfit : len - ret + 0 ≤ 2 * blkSize := by
      unfold blkSize at hpos hlow hhigh ⊢
      omega
    obtain ⟨b', hcopy, hpaste⟩ := copyTail_pasted buf len ret (s.dev.vol.block (s.ind.blk n))
      (n := len - ret) (k := 0) (by omega) hfit
    rw [hcount] at hcopy
    refine ⟨s.putBlock (s.ind.blk n) b', ?_, fun f hf => ?_⟩
    · rw [writeBlocks_step h hn hb (by rw [if_neg (by omega), if_neg (by omega)]; exact hcopy)]
      rw [writeBlocks]
    · rw [← hi]
      refine .one h hb fun q hq => ?_
      rw [hf _ (Nat.le_add_right _ _) (hin q hq)]
      exact hpaste.overlay (by omega) (.inr rfl) (.inl hcount) hcount.le hq
  | succ i ih =>
    have hpos' : (n + 1) * blkSize = offset + (ret + blkSize) := by
      rw [Nat.succ_mul, hpos, Nat.add_assoc]
    have hmore : (n + 1) * blkSize ≤ (need - 1) * blkSize := Nat.mul_le_mul_right _ (by omega)
    have hfull : min (len - ret) (blkSize - 0) = blkSize := by omega
    have htot : ret + blkSize ≤ total := by omega
    have hret' : ret + blkSize ≤ len := by omega
    have hlast' : (n + 1 + 1) * blkSize ≤ need * blkSize := Nat.mul_le_mul_right _ (by omega)
    obtain ⟨b', hcopy, hpaste⟩ := copyBlock_pasted buf len ret (s.dev.vol.block (s.ind.blk n))
      (n := blkSize) (k := 0) (by omega) (Nat.zero_le _) hret
    rw [hfull] at hcopy hpaste
    have hone : ∀ f : Nat → UInt8, (∀ p, n * blkSize ≤ p → p < need * blkSize →
        f p = overlay (fileByte s.dev.vol s.ind) buf offset total p) →
        Copied s (s.putBlock (s.ind.blk n) b') n (n + 1) f := by
      intro f hf
      refine .one h hb fun q hq => ?_
      rw [hf _ (Nat.le_add_right _ _) (hin q hq)]
      exact hpaste.overlay (by omega) (.inr rfl) (.inr (Nat.le_add_left _ _)) htot hq
    have hroom : (s.putBlock (s.ind.blk n) b').dev.Room := h
    obtain ⟨s', hrun, hrest⟩ := ih (ret + blkSize)
      (s := s.putBlock (s.ind.blk n) b') (n := n + 1) hroom hblk hown (by omega) (by omega) hret'
        hpos'
      (hblk _ (by omega)) (by omega) (Nat.mul_le_mul_right _ (Nat.le_succ _)) hlast' fun q hq => by
        rw [Nat.succ_mul] at hlast'
        omega
    refine ⟨s', ?_, fun f hf => .cons hown (by omega) (hone f hf) (hrest f fun p hp hp' => ?_)⟩
    · rw [writeBlocks_step h hn hb (by rw [if_neg (by omega), if_pos (by omega), hcopy])]
      exact hrun
    · have hdiv : n < p / blkSize := (Nat.le_div_iff_mul_le (by decide)).mpr hp
      have hdiv' : p / blkSize < need := (Nat.div_lt_iff_lt_mul (by decide)).mpr hp'
      have hsame := fileByte_putBlock b' hb fun he => by
        have := hown _ _ hdiv' (by omega) he
        omega
      rw [hf p (hnext.trans hp) hp', overlay, overlay]
      exact ite_congr rfl (fun _ => rfl) fun _ => hsame.symm

/-- The first block gets what fits into it. -/
theorem writeBlocks_first (buf : Nat → UInt8) (len need total : Nat) {offset i : Nat}
    (h : s.dev.Room) (hn : n < ext2NBlocks)
    (hb : IsBlock (s.ind.blk n)) (hpos : n * blkSize + offset % blkSize = offset)
    (htotal : min len (blkSize - offset % blkSize) = total ∨
      (blkSize - offset % blkSize ≤ len ∧ blkSize - offset % blkSize ≤ total)) :
    ∃ b', writeBlocks buf len n need (offset % blkSize) (i + 1) n 0 s =
        writeBlocks buf len n need (offset % blkSize) i (n + 1)
          (min len (blkSize - offset % blkSize)) (s.putBlock (s.ind.blk n) b') ∧
      ∀ q, q < blkSize → b'.get q =
        overlay (fileByte s.dev.vol s.ind) buf offset total (n * blkSize + q) := by
  have hmod : offset % blkSize < blkSize := Nat.mod_lt _ (by decide)
  obtain ⟨b', hcopy, hpaste⟩ := copyBlock_pasted buf len 0 (s.dev.vol.block (s.ind.blk n))
    (n := blkSize) (k := offset % blkSize) (Nat.le_add_left _ _)
    hmod.le (Nat.zero_le _)
  rw [Nat.sub_zero, Nat.zero_add] at hcopy
  rw [Nat.sub_zero] at hpaste
  refine ⟨b', writeBlocks_step h hn hb (by rw [if_pos rfl, hcopy]), fun q hq => ?_⟩
  exact hpaste.overlay (by omega) (.inl rfl) (by omega) (by omega) hq

/-- The loop over the blocks stores a part of the buffer, and nothing else. -/
theorem writeBlocks_ok (buf : Nat → UInt8) {offset : Nat} (h : s.dev.Room)
    (hblk : ∀ k, k < need → IsBlock (s.ind.blk k))
    (hown : ∀ k k', k < need → k' < need → s.ind.blk k = s.ind.blk k' → k = k')
    (hle : need ≤ ext2NBlocks) (hneed : need = (offset + len + (blkSize - 1)) / blkSize) :
    ∃ s', writeBlocks buf len (offset / blkSize : Nat) need (offset % blkSize)
        (need - offset / blkSize) (offset / blkSize : Nat) 0 s = .ok (stored offset len, s') ∧
      Copied s s' (offset / blkSize) need
        (overlay (fileByte s.dev.vol s.ind) buf offset (stored offset len)) := by
  have hpos : offset / blkSize * blkSize + offset % blkSize = offset := Nat.div_add_mod' ..
  rcases Nat.lt_trichotomy (offset / blkSize + 1) need with hmany | hone | hnone
  case inl =>
    have htotal : stored offset len = len - (offset + len - (need - 1) * blkSize) / 2 := by
      unfold stored blkSize at *
      rw [if_neg (by omega)]
      omega
    have hlow : (need - 1) * blkSize < offset + len := by
      unfold blkSize at *
      omega
    have hhigh : offset + len ≤ need * blkSize := by
      unfold blkSize at *
      omega
    have hfull : blkSize - offset % blkSize ≤ len := by
      unfold blkSize at *
      omega
    have hsome : blkSize - offset % blkSize ≤ stored offset len := by
      unfold blkSize at *
      omega
    have hpos' : (offset / blkSize + 1) * blkSize = offset + (blkSize - offset % blkSize) := by
      rw [Nat.succ_mul]
      have hmod : offset % blkSize < blkSize := Nat.mod_lt _ (by decide)
      omega
    obtain ⟨i, hi⟩ : ∃ i, offset / blkSize + 1 + i + 1 = need :=
      ⟨need - offset / blkSize - 2, by omega⟩
    have hb := hblk (offset / blkSize) (by omega)
    obtain ⟨b', hstep, hbytes⟩ := writeBlocks_first buf len need (stored offset len)
      (i := i + 1) h (by omega) hb hpos (.inr ⟨hfull, hsome⟩)
    rw [Nat.min_eq_right hfull] at hstep
    have hroom : (s.putBlock (s.ind.blk (offset / blkSize)) b').dev.Room := h
    obtain ⟨s', hrun, hrest⟩ := writeBlocks_rest buf (offset % blkSize) _
      (s := s.putBlock (s.ind.blk (offset / blkSize)) b') hroom hblk hown hle (Nat.lt_succ_self _)
        hi hfull hpos'
      hlow hhigh htotal
    refine ⟨s', ?_, .cons hown (by omega) (.one h hb hbytes) (hrest _ fun p hp hp' => ?_)⟩
    · rw [show need - offset / blkSize = i + 1 + 1 by omega, hstep]
      exact hrun
    · have hdiv : offset / blkSize < p / blkSize := (Nat.le_div_iff_mul_le (by decide)).mpr hp
      have hdiv' : p / blkSize < need := (Nat.div_lt_iff_lt_mul (by decide)).mpr hp'
      have hsame := fileByte_putBlock b' hb fun he => by
        have := hown _ _ hdiv' (by omega) he
        omega
      rw [overlay, overlay]
      exact ite_congr rfl (fun _ => rfl) fun _ => hsame.symm
  case inr.inl =>
    have hfit : offset % blkSize + len ≤ blkSize := by
      unfold blkSize at *
      omega
    have htotal : stored offset len = len := if_pos hfit
    have hmin : min len (blkSize - offset % blkSize) = len := by omega
    have hb := hblk (offset / blkSize) (by omega)
    obtain ⟨b', hstep, hbytes⟩ := writeBlocks_first buf len need (stored offset len)
      (i := 0) h (by omega) hb hpos (.inl (hmin.trans htotal.symm))
    refine ⟨s.putBlock (s.ind.blk (offset / blkSize)) b', ?_, ?_⟩
    · rw [show need - offset / blkSize = 0 + 1 by omega, hstep, hmin, htotal, writeBlocks]
    · have hcopied := Copied.one h hb hbytes
      rwa [hone] at hcopied
  case inr.inr =>
    have hlen : len = 0 := by
      unfold blkSize at *
      omega
    have htotal : stored offset len = 0 := by
      rw [hlen]
      exact if_pos (Nat.mod_lt _ (by decide)).le
    rw [show need - offset / blkSize = 0 by omega, htotal]
    exact ⟨s, rfl, .refl h (by omega)⟩

end Blocks

/-! ## The call -/

/-- The file can be written, the offset is not behind its end, and there is room for the text. -/
structure Writable (s : Fs) (r : UInt32) (offset len : Nat) : Prop where
  live : s.dev.vol.Live r
  file : has (s.dev.vol.inode r).mode typeDir = false
  mode : has (s.dev.vol.inode r).mode wrAble = true
  sized : Sized (s.dev.vol.inode r)
  inside : offset ≤ (s.dev.vol.inode r).size.toNat
  fits : offset + len ≤ ext2NBlocks * blkSize
  free : (offset + len + (blkSize - 1)) / blkSize ≤
    (s.dev.vol.inode r).blocks.toNat + s.gdt.freeBlocksCount.toNat

/-- The file can be written, and there is room for the text. The offset may lie behind the end. -/
structure Roomy (s : Fs) (r : UInt32) (offset len : Nat) : Prop where
  live : s.dev.vol.Live r
  file : has (s.dev.vol.inode r).mode typeDir = false
  mode : has (s.dev.vol.inode r).mode wrAble = true
  fits : offset + len ≤ ext2NBlocks * blkSize
  free : (offset + len + (blkSize - 1)) / blkSize ≤
    (s.dev.vol.inode r).blocks.toNat + s.gdt.freeBlocksCount.toNat

instance (s : Fs) (r : UInt32) (offset len : Nat) : Decidable (Roomy s r offset len) :=
  decidable_of_iff
    (s.dev.vol.Live r ∧ has (s.dev.vol.inode r).mode typeDir = false ∧
      has (s.dev.vol.inode r).mode wrAble = true ∧ offset + len ≤ ext2NBlocks * blkSize ∧
      (offset + len + (blkSize - 1)) / blkSize ≤
        (s.dev.vol.inode r).blocks.toNat + s.gdt.freeBlocksCount.toNat)
    ⟨fun ⟨hlive, hfile, hmode, hfits, hfree⟩ => ⟨hlive, hfile, hmode, hfits, hfree⟩,
      fun h => ⟨h.live, h.file, h.mode, h.fits, h.free⟩⟩

theorem Writable.roomy {s : Fs} {r : UInt32} {offset len : Nat} (h : Writable s r offset len) :
    Roomy s r offset len := ⟨h.live, h.file, h.mode, h.fits, h.free⟩

/-- The file has the size of the whole text and the blocks for it; what it needs no more is free,
and nothing else changed. -/
structure Resizes (s s' : Fs) (r : UInt32) (offset len : Nat) : Prop where
  size : (s'.dev.vol.inode r).size.toNat = offset + len
  sized : Sized (s'.dev.vol.inode r)
  mode : (s'.dev.vol.inode r).mode = (s.dev.vol.inode r).mode
  inodes : ∀ i, i ≠ r → s'.dev.vol.inode i = s.dev.vol.inode i
  contents : ∀ i, s.dev.vol.Live i → i ≠ r → ∀ k, k < (s.dev.vol.inode i).blocks.toNat →
    s'.dev.vol.block ((s.dev.vol.inode i).blk k) = s.dev.vol.block ((s.dev.vol.inode i).blk k)
  inodeMap : s'.dev.vol.inodeMap = s.dev.vol.inodeMap
  freed : ∀ k, k < (s.dev.vol.inode r).blocks.toNat →
    (∀ k', k' < (s'.dev.vol.inode r).blocks.toNat →
      (s'.dev.vol.inode r).blk k' ≠ (s.dev.vol.inode r).blk k) →
    s'.dev.vol.blockMap.bit ((s.dev.vol.inode r).blk k).toNat = false
  free : s'.gdt.freeBlocksCount.toNat + (s'.dev.vol.inode r).blocks.toNat =
    s.gdt.freeBlocksCount.toNat + (s.dev.vol.inode r).blocks.toNat

/-- The file has `ret` bytes of the buffer from `offset` on, and the size of the whole text; what
it needs no more is free, and nothing else changed. -/
structure Wrote (s s' : Fs) (r : UInt32) (offset len ret : Nat) (buf : Nat → UInt8) : Prop
    extends Resizes s s' r offset len where
  bytes : ∀ p, p < offset + ret → fileByte s'.dev.vol (s'.dev.vol.inode r) p =
    overlay (fileByte s.dev.vol (s.dev.vol.inode r)) buf offset ret p

section Write

variable {s t t' s' : Fs} {r len : UInt32} {offset : UInt64} {buf : Nat → UInt8} {need : Nat}

theorem Consistent.holder (h : Consistent s) (hr : s.dev.vol.Live r) :
    Holder { s with ind := s.dev.vol.inode r } where
  room := h.room
  hasBlocks := h.sound.blocks hr
  marked _ hk := h.sound.marked hr hk
  own _ _ hk hk' he := (h.sound.own hr hr hk hk' he).2
  lastBlock := h.lastBlock
  freeBlocks := h.freeBlocks

/-- The file system at the end of the call. -/
def Fs.saved (t' : Fs) (r : UInt32) (size : UInt32) : Fs :=
  { t' with
    ind := { t'.ind with size := size }
    dev := t'.dev.putInode r { t'.ind with size := size } }

theorem first_offset' (n : Nat) :
    sub32 (n % 2 ^ 32) (n / blkSize * blkSize % 2 ^ 32) = n % blkSize := by
  unfold sub32 blkSize
  omega

theorem write_eq (h : Consistent s) (hw : Roomy s r offset.toNat len.toNat)
    (hneed : need = (offset.toNat + len.toNat + (blkSize - 1)) / blkSize)
    (hresize : (if (s.dev.vol.inode r).blocks.toNat ≤ need then
        growBlocks (need - (s.dev.vol.inode r).blocks.toNat) { s with ind := s.dev.vol.inode r }
      else shrinkBlocks ((s.dev.vol.inode r).blocks.toNat - need)
        { s with ind := s.dev.vol.inode r }) = .ok t)
    (hblocks : writeBlocks buf len.toNat (offset.toNat / blkSize : Nat) need
      (offset.toNat % blkSize) (need - offset.toNat / blkSize) (offset.toNat / blkSize : Nat) 0 t =
        .ok (stored offset.toNat len.toNat, t')) (hroom : t'.dev.Room) :
    write s r offset buf len = .ok (stored offset.toNat len.toNat,
      t'.saved r (.ofNat (offset.toNat + len.toNat))) := by
  have hfits := hw.fits
  have hneed' : (len.toNat + offset.toNat + (blkSize - 1)) % 2 ^ 64 / blkSize % 2 ^ 32 = need := by
    unfold ext2NBlocks blkSize at *
    omega
  have hskip : toInt (offset.toNat / blkSize) = (offset.toNat / blkSize : Nat) := toInt_small (by
    unfold ext2NBlocks blkSize at *
    omega)
  have hint : toInt need = need := toInt_small (by
    unfold ext2NBlocks blkSize at *
    omega)
  have hcount : ((need : Int) - (offset.toNat / blkSize : Nat)).toNat =
      need - offset.toNat / blkSize := by omega
  rw [write, rdInd_ok h.room hw.live.1, ok_bind, if_neg (by rw [hw.mode]; decide)]
  simp only [hneed', hskip, hint, first_offset', hcount]
  have hsave : wrInd { t' with ind.size := .ofNat (offset.toNat + len.toNat) } r =
      .ok (t'.saved r (.ofNat (offset.toNat + len.toNat))) := wrInd_ok hroom hw.live.1
  by_cases hmore : (s.dev.vol.inode r).blocks.toNat ≤ need
  · rw [if_pos hmore] at hresize ⊢
    rw [hresize, ok_bind, hblocks, ok_bind, hsave, ok_bind]
    rfl
  · rw [if_neg hmore] at hresize ⊢
    rw [hresize, ok_bind, hblocks, ok_bind, hsave, ok_bind]
    rfl

theorem stored_le (offset len : Nat) : stored offset len ≤ len := by
  unfold stored
  split <;> omega

/-- No block of another file becomes one of this file. -/
theorem Resized.foreign (h : Consistent s) (hr : s.dev.vol.Live r)
    (hres : Resized { s with ind := s.dev.vol.inode r } t need) {i : UInt32} {j k : Nat}
    (hi : s.dev.vol.Live i) (hne : i ≠ r) (hk : k < (s.dev.vol.inode i).blocks.toNat)
    (hj : j < need) :
    t.ind.blk j ≠ (s.dev.vol.inode i).blk k := by
  intro he
  by_cases hold : j < (s.dev.vol.inode r).blocks.toNat
  · have hkept : t.ind.blk j = (s.dev.vol.inode r).blk j := hres.kept j hold hj
    rw [hkept] at he
    exact hne (h.sound.own hr hi hold hk he).1.symm
  · have hfresh := hres.fresh j (not_lt.mp hold) hj
    have hmark := h.sound.marked hi hk
    rw [← he] at hmark
    exact absurd (hmark.symm.trans hfresh) (by decide)

/-- The volume at the end of the call, with the parts that changed. -/
theorem vol_saved (hr : IsInode r) (size : UInt32) {skip : Nat} {f : Nat → UInt8}
    (hres : Resized { s with ind := s.dev.vol.inode r } t need) (hcop : Copied t t' skip need f) :
    (t'.saved r size).dev.vol = { t.dev.vol with
      inodeMap := s.dev.vol.inodeMap
      inode := Function.update s.dev.vol.inode r { t.ind with size := size }
      block := t'.dev.vol.block } := by
  have hvol : (t'.saved r size).dev.vol = t'.dev.vol.setInode r { t'.ind with size := size } :=
    Device.vol_putInode hr _
  have hmap : t.dev.vol.inodeMap = s.dev.vol.inodeMap := hres.inodeMap
  have hinode : t.dev.vol.inode = s.dev.vol.inode := hres.inode
  rw [hvol, hcop.ind, hcop.vol, Vol.setInode, ← hmap, ← hinode]

/-- The bytes of the file in front of the offset, and those that were stored. -/
theorem fileByte_written {ret p : Nat} {x : Inode} (hw : Writable s r offset.toNat len.toNat)
    (hneed : need = (offset.toNat + len.toNat + (blkSize - 1)) / blkSize) (hret : ret ≤ len.toNat)
    (hres : Resized { s with ind := s.dev.vol.inode r } t need)
    (hcop : Copied t t' (offset.toNat / blkSize) need
      (overlay (fileByte t.dev.vol t.ind) buf offset.toNat ret))
    (hx : ∀ k, x.blk k = t.ind.blk k) (hp : p < offset.toNat + ret) :
    fileByte t'.dev.vol x p =
      overlay (fileByte s.dev.vol (s.dev.vol.inode r)) buf offset.toNat ret p := by
  have hlt : p / blkSize < need := by
    rw [hneed]
    unfold blkSize
    omega
  have hmod : p % blkSize < blkSize := Nat.mod_lt _ (by decide)
  have hblock : t.dev.vol.block = s.dev.vol.block := hres.block
  -- in front of the offset the file has the blocks that it had
  have hkept : p < offset.toNat →
      fileByte t.dev.vol t.ind p = fileByte s.dev.vol (s.dev.vol.inode r) p := by
    intro hlow
    have hinside := hw.inside
    have hexact := hw.sized.exact
    have hold : p / blkSize < (s.dev.vol.inode r).blocks.toNat := by
      unfold blkSize at *
      omega
    have hblk : t.ind.blk (p / blkSize) = (s.dev.vol.inode r).blk (p / blkSize) :=
      hres.kept _ hold hlt
    rw [fileByte, hblk, hblock, fileByte]
  have hover : overlay (fileByte t.dev.vol t.ind) buf offset.toNat ret p =
      overlay (fileByte s.dev.vol (s.dev.vol.inode r)) buf offset.toNat ret p := by
    rw [overlay, overlay]
    by_cases hin : offset.toNat ≤ p ∧ p < offset.toNat + ret
    · rw [if_pos hin, if_pos hin]
    · rw [if_neg hin, if_neg hin]
      exact hkept (by omega)
  rw [← hover, fileByte, hx]
  by_cases hskip : offset.toNat / blkSize ≤ p / blkSize
  · rw [hcop.bytes _ _ hskip hlt hmod, Nat.div_add_mod']
  · have hlow : p < offset.toNat := by
      unfold blkSize at *
      omega
    have hne : ∀ j, offset.toNat / blkSize ≤ j → j < need →
        t.ind.blk j ≠ t.ind.blk (p / blkSize) := by
      intro j hj hjn he
      have hblocks := hres.blocks
      have hsame := hres.holder.own _ _ (hblocks ▸ hjn) (hblocks ▸ hlt) he
      omega
    rw [hcop.others _ hne, overlay, if_neg (by omega)]
    rfl

theorem resizes (h : Consistent s) (hw : Roomy s r offset.toNat len.toNat) {f : Nat → UInt8}
    (hneed : need = (offset.toNat + len.toNat + (blkSize - 1)) / blkSize)
    (hres : Resized { s with ind := s.dev.vol.inode r } t need)
    (hcop : Copied t t' (offset.toNat / blkSize) need f) :
    Resizes s (t'.saved r (.ofNat (offset.toNat + len.toNat))) r offset.toNat len.toNat := by
  have hfits := hw.fits
  have hvol := vol_saved hw.live.1 (.ofNat (offset.toNat + len.toNat)) hres hcop
  have hblock : t.dev.vol.block = s.dev.vol.block := hres.block
  have hsize : (UInt32.ofNat (offset.toNat + len.toNat)).toNat = offset.toNat + len.toNat := by
    rw [UInt32.toNat_ofNat']
    unfold ext2NBlocks blkSize at hfits
    omega
  have hself : (t'.saved r (.ofNat (offset.toNat + len.toNat))).dev.vol.inode r =
      { t.ind with size := .ofNat (offset.toNat + len.toNat) } := by
    rw [hvol]
    exact Function.update_self ..
  have hblocks : ((t'.saved r (.ofNat (offset.toNat + len.toNat))).dev.vol.inode r).blocks.toNat =
      need := by
    rw [hself]
    exact hres.blocks
  have hmap : (t'.saved r (.ofNat (offset.toNat + len.toNat))).dev.vol.blockMap =
      t.dev.vol.blockMap := by rw [hvol]
  refine ⟨by rw [hself]; exact hsize, ⟨?_, ?_⟩, by rw [hself]; exact hres.mode,
    fun i hi => ?_, fun i hi hne k hk => ?_, by rw [hvol], fun k hk hnew => ?_, ?_⟩
  · rw [hself]
    exact ⟨hres.holder.hasBlocks.le, hres.holder.hasBlocks.isBlock⟩
  · rw [hblocks, hself, hneed, hsize]
  · rw [hvol]
    exact Function.update_of_ne hi ..
  · rw [hvol]
    exact (hcop.others _ fun j _ hj => hres.foreign h hw.live hi hne hk hj).trans (by rw [hblock])
  · rw [hmap]
    rw [hblocks, hself] at hnew
    exact hres.gone k hk hnew
  · rw [hblocks]
    have hfree := hres.free
    have hgdt : (t'.saved r (.ofNat (offset.toNat + len.toNat))).gdt = t.gdt := by
      show t'.gdt = _
      rw [hcop.fs]
    rw [hgdt]
    exact hfree

theorem wrote (h : Consistent s) (hw : Writable s r offset.toNat len.toNat) {ret : Nat}
    (hneed : need = (offset.toNat + len.toNat + (blkSize - 1)) / blkSize) (hret : ret ≤ len.toNat)
    (hres : Resized { s with ind := s.dev.vol.inode r } t need)
    (hcop : Copied t t' (offset.toNat / blkSize) need
      (overlay (fileByte t.dev.vol t.ind) buf offset.toNat ret)) :
    Wrote s (t'.saved r (.ofNat (offset.toNat + len.toNat))) r offset.toNat len.toNat ret buf where
  toResizes := resizes h hw.roomy hneed hres hcop
  bytes p hp := by
    have hvol := vol_saved hw.live.1 (.ofNat (offset.toNat + len.toNat)) hres hcop
    have hself : (t'.saved r (.ofNat (offset.toNat + len.toNat))).dev.vol.inode r =
        { t.ind with size := .ofNat (offset.toNat + len.toNat) } := by
      rw [hvol]
      exact Function.update_self ..
    rw [hself, hvol]
    exact fileByte_written hw hneed hret hres hcop (fun _ => rfl) hp

/-- Every other file keeps its blocks, and this one has blocks of its own. -/
theorem Resizes.consistent {size : UInt32} {skip n : Nat} {f : Nat → UInt8} (h : Consistent s)
    (hr : s.dev.vol.Live r) (hfile : has (s.dev.vol.inode r).mode typeDir = false)
    (hres : Resized { s with ind := s.dev.vol.inode r } t need) (hcop : Copied t t' skip need f)
    (hwrote : Resizes s (t'.saved r size) r offset.toNat n) :
    Consistent (t'.saved r size) := by
  have hvol := vol_saved hr.1 size hres hcop
  have hself : (t'.saved r size).dev.vol.inode r = { t.ind with size := size } := by
    rw [hvol]
    exact Function.update_self ..
  have hother : ∀ {i}, i ≠ r → (t'.saved r size).dev.vol.inode i = s.dev.vol.inode i :=
    fun hi => hwrote.inodes _ hi
  have hlive : ∀ {i}, (t'.saved r size).dev.vol.Live i → s.dev.vol.Live i := by
    intro i hi
    have hmap := hwrote.inodeMap
    rw [Vol.Live, hmap] at hi
    exact hi
  have hmap : (t'.saved r size).dev.vol.blockMap = t.dev.vol.blockMap := by rw [hvol]
  have hblocks := hres.blocks
  -- the blocks of another file are still marked
  have hmarked : ∀ {i k}, s.dev.vol.Live i → i ≠ r → k < (s.dev.vol.inode i).blocks.toNat →
      t.dev.vol.blockMap.bit ((s.dev.vol.inode i).blk k).toNat = true := by
    intro i k hi hne hk
    have hsame := hres.others ((s.dev.vol.inode i).blk k).toNat
      (fun j hj he => hne (h.sound.own hr hi hj hk (UInt32.toNat_inj.mp he)).1.symm)
      (fun j hj he => hres.foreign h hr hi hne hk hj (UInt32.toNat_inj.mp he))
    rw [hsame]
    exact h.sound.marked hi hk
  have hgdt : t'.gdt = t.gdt := by rw [hcop.fs]
  refine ⟨hcop.room,
    ⟨fun {i} hi => ?_, fun {i k} hi hk => ?_, fun {i i' k k'} hi hi' hk hk' he => ?_,
    fun {i} hi hdir => ?_, fun {i k} hi hdir hk => ?_⟩, ?_, ?_, ?_, ?_⟩
  · rcases eq_or_ne i r with rfl | hne
    · exact hwrote.sized.1
    · rw [hother hne]
      exact h.sound.blocks (hlive hi)
  · rw [hmap]
    rcases eq_or_ne i r with rfl | hne
    · rw [hself] at hk ⊢
      exact hres.holder.marked k hk
    · rw [hother hne] at hk ⊢
      exact hmarked (hlive hi) hne hk
  · rcases eq_or_ne i r with rfl | hne <;> rcases eq_or_ne i' i with rfl | hne'
    · rw [hself] at hk hk' he
      exact ⟨rfl, hres.holder.own k k' hk hk' he⟩
    · rw [hself] at hk he
      rw [hother hne'] at hk' he
      exact absurd he (hres.foreign h hr (hlive hi') hne' hk' (hblocks ▸ hk))
    · rw [hother hne] at hk hk' he
      exact h.sound.own (hlive hi) (hlive hi) hk hk' he
    · rcases eq_or_ne i' r with rfl | hnr
      · rw [hself] at hk' he
        rw [hother hne] at hk he
        exact absurd he.symm (hres.foreign h hr (hlive hi) hne hk (hblocks ▸ hk'))
      · rw [hother hne] at hk he
        rw [hother hnr] at hk' he
        exact h.sound.own (hlive hi) (hlive hi') hk hk' he
  · have hne : i ≠ r := by
      rintro rfl
      rw [hwrote.mode, hfile] at hdir
      cases hdir
    rw [hother hne] at hdir ⊢
    rw [h.sound.size (hlive hi) hdir]
    congr 2
    refine List.flatMap_congr fun k hk => ?_
    rw [hwrote.contents i (hlive hi) hne k (List.mem_range.mp hk)]
  · have hne : i ≠ r := by
      rintro rfl
      rw [hwrote.mode, hfile] at hdir
      cases hdir
    rw [hother hne] at hdir hk ⊢
    rw [hwrote.contents i (hlive hi) hne k hk]
    exact h.sound.names (hlive hi) hdir hk
  · show IsBlock t'.lastAllocBlock
    rw [hcop.fs]
    exact hres.holder.lastBlock
  · show IsInode t'.lastAllocInode
    rw [hcop.fs]
    have hlast : t.lastAllocInode = s.lastAllocInode := hres.lastInode
    rw [hlast]
    exact h.lastInode
  · show Counts t'.gdt.freeBlocksCount _
    rw [hgdt, hmap]
    exact hres.holder.freeBlocks
  · show Counts t'.gdt.freeInodesCount _
    have hcount : t.gdt.freeInodesCount = s.gdt.freeInodesCount := hres.freeInodes
    have hinodes := hwrote.inodeMap
    rw [hgdt, hcount, hinodes]
    exact h.freeInodes

/-- What `ext2_write` does: it sets the number of blocks, copies and saves the inode. -/
theorem Roomy.write (buf : Nat → UInt8) (h : Consistent s)
    (hw : Roomy s r offset.toNat len.toNat)
    (hneed : need = (offset.toNat + len.toNat + (blkSize - 1)) / blkSize) :
    ∃ t t', Resized { s with ind := s.dev.vol.inode r } t need ∧
      Copied t t' (offset.toNat / blkSize) need (overlay (fileByte t.dev.vol t.ind) buf
        offset.toNat (stored offset.toNat len.toNat)) ∧
      Ext2.write s r offset buf len = .ok (stored offset.toNat len.toNat,
        t'.saved r (.ofNat (offset.toNat + len.toNat))) := by
  have hfits := hw.fits
  have hle : need ≤ ext2NBlocks := by
    rw [hneed]
    unfold ext2NBlocks blkSize at *
    omega
  have hfree := hw.free
  rw [← hneed] at hfree
  obtain ⟨t, hresize, hres⟩ := (h.holder hw.live).resize hle hfree
  have hblocks := hres.blocks
  obtain ⟨t', hrun, hcop⟩ := writeBlocks_ok buf hres.holder.room
    (fun k hk => hres.holder.hasBlocks.isBlock k (by omega))
    (fun k k' hk hk' => hres.holder.own k k' (by omega) (by omega)) hle hneed
  exact ⟨t, t', hres, hcop, write_eq h hw hneed hresize hrun hcop.room⟩

/-- `ext2_write` returns the number of bytes that it stored, and leaves the rest of the file system
as it should. -/
theorem write_ok (buf : Nat → UInt8) (h : Consistent s) (hw : Writable s r offset.toNat len.toNat) :
    ∃ s', write s r offset buf len = .ok (stored offset.toNat len.toNat, s') ∧
      Wrote s s' r offset.toNat len.toNat (stored offset.toNat len.toNat) buf ∧ Consistent s' := by
  obtain ⟨t, t', hres, hcop, hrun⟩ := hw.roomy.write buf h rfl
  have hwrote := wrote h hw rfl (stored_le _ _) hres hcop
  exact ⟨_, hrun, hwrote, hwrote.toResizes.consistent h hw.live hw.file hres hcop⟩

/-- `ext2_write` stores all of the text. -/
def WritesAll (s : Fs) (r : UInt32) (offset : UInt64) (buf : Nat → UInt8) (len : UInt32) : Prop :=
  ∃ s', write s r offset buf len = .ok (len.toNat, s') ∧
    Wrote s s' r offset.toNat len.toNat len.toNat buf ∧ Consistent s'

/-- The text lies in one block, or its last byte is the first of a block. -/
def Aligned (offset len : Nat) : Prop :=
  offset % blkSize + len ≤ blkSize ∨ (offset + len) % blkSize = 1

instance (offset len : Nat) : Decidable (Aligned offset len) := inferInstanceAs (Decidable (_ ∨ _))

theorem stored_eq_iff (offset len : Nat) : stored offset len = len ↔ Aligned offset len := by
  unfold stored Aligned
  by_cases hone : offset % blkSize + len ≤ blkSize
  · rw [if_pos hone]
    exact ⟨fun _ => .inl hone, fun _ => rfl⟩
  · rw [if_neg hone]
    unfold blkSize at *
    omega

/-- For every file that can be written, with room for the text. -/
theorem write_all_iff (buf : Nat → UInt8) (h : Consistent s)
    (hw : Writable s r offset.toNat len.toNat) :
    WritesAll s r offset buf len ↔ Aligned offset.toNat len.toNat := by
  obtain ⟨s', hrun, hwrote, hcons⟩ := write_ok buf h hw
  rw [← stored_eq_iff]
  constructor
  · rintro ⟨s'', hrun', -⟩
    have hboth := hrun.symm.trans hrun'
    injection hboth with hpair
    exact congrArg Prod.fst hpair
  · intro hall
    rw [hall] at hrun hwrote
    exact ⟨s', hrun, hwrote, hcons⟩

end Write

theorem write_all_iff_hello : ∃ s r, init (.zero rdSize) (.lit "ramdisk1") = .ok s ∧
    Writable s r 0 3 ∧ WritesAll s r 0 (fun _ => 0x61) 3 := by
  obtain ⟨s, r, hrun, hcons, hlive, hmode, hsized, -, hfree⟩ := init_file
  have hw : Writable s r (0 : UInt64).toNat (3 : UInt32).toNat := by
    refine ⟨hlive, by rw [hmode]; decide, by rw [hmode]; decide, hsized, Nat.zero_le _, by decide,
      ?_⟩
    rw [hfree]
    exact le_trans (by decide : _ ≤ 4093) (Nat.le_add_left _ _)
  exact ⟨s, r, hrun, hw, (write_all_iff _ hcons hw).mpr (.inl (by decide))⟩

end OsWorkbench.Ext2
