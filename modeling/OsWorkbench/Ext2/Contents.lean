import OsWorkbench.Ext2.Writing

/-!
# What a file holds

The files of a volume as byte strings: a write cuts the string at the offset and appends the text,
and a read returns a part of it.
-/

namespace OsWorkbench.Ext2

/-- The bytes of a file. -/
def fileBytes (v : Vol) (x : Inode) : List UInt8 := (List.range x.size.toNat).map (fileByte v x)

/-- The inode is in use, for a file that can be written. -/
def Regular (s : Fs) (r : UInt32) : Prop :=
  s.dev.vol.Live r ∧ has (s.dev.vol.inode r).mode typeDir = false ∧
    has (s.dev.vol.inode r).mode wrAble = true

instance (s : Fs) (r : UInt32) : Decidable (Regular s r) := by
  unfold Regular Vol.Live
  infer_instance

def Fs.file (s : Fs) (r : UInt32) : Option (List UInt8) :=
  if Regular s r then some (fileBytes s.dev.vol (s.dev.vol.inode r)) else none

/-- Every file has the blocks that its size takes. -/
structure Tidy (s : Fs) : Prop extends Consistent s where
  sized : ∀ {r}, Regular s r → Sized (s.dev.vol.inode r)

/-- The number of blocks for `n` bytes. -/
def blocksFor (n : Nat) : Nat := (n + (blkSize - 1)) / blkSize

/-- A text of `len` bytes can be written at `offset` of a file of `size` bytes, with `free` blocks
left. -/
structure Fits (size offset len free : Nat) : Prop where
  inside : offset ≤ size
  fits : offset + len ≤ ext2NBlocks * blkSize
  room : blocksFor (offset + len) ≤ blocksFor size + free
  aligned : Aligned offset len

instance (size offset len free : Nat) : Decidable (Fits size offset len free) :=
  decidable_of_iff (offset ≤ size ∧ offset + len ≤ ext2NBlocks * blkSize ∧
    blocksFor (offset + len) ≤ blocksFor size + free ∧ Aligned offset len)
    ⟨fun h => ⟨h.1, h.2.1, h.2.2.1, h.2.2.2⟩, fun h => ⟨h.1, h.2, h.3, h.4⟩⟩

section Calls

variable {s s' : Fs} {r len : UInt32} {offset : UInt64} {buf : Nat → UInt8} {c : List UInt8}

theorem length_fileBytes (v : Vol) (x : Inode) : (fileBytes v x).length = x.size.toNat := by
  rw [fileBytes, List.length_map, List.length_range]

theorem of_file (h : s.file r = some c) :
    Regular s r ∧ c = fileBytes s.dev.vol (s.dev.vol.inode r) := by
  unfold Fs.file at h
  split at h
  · next hr => exact ⟨hr, (Option.some.inj h).symm⟩
  · cases h

/-- A file that no call touched. -/
theorem file_congr (hmap : s'.dev.vol.inodeMap = s.dev.vol.inodeMap)
    (hinode : s'.dev.vol.inode r = s.dev.vol.inode r)
    (hbytes : Regular s r → fileBytes s'.dev.vol (s.dev.vol.inode r) =
      fileBytes s.dev.vol (s.dev.vol.inode r)) : s'.file r = s.file r := by
  have hreg : Regular s' r ↔ Regular s r := by
    unfold Regular Vol.Live
    rw [hmap, hinode]
  unfold Fs.file
  by_cases hr : Regular s r
  · rw [if_pos hr, if_pos (hreg.mpr hr), hinode, hbytes hr]
  · rw [if_neg hr, if_neg fun hr' => hr (hreg.mp hr')]

/-- The bytes of the file after the text was written. -/
theorem Wrote.appends {n len : Nat} (h : Wrote s s' r n len len buf)
    (hn : n ≤ (s.dev.vol.inode r).size.toNat) :
    fileBytes s'.dev.vol (s'.dev.vol.inode r) =
      (fileBytes s.dev.vol (s.dev.vol.inode r)).take n ++ (List.range len).map buf := by
  have htake : ((fileBytes s.dev.vol (s.dev.vol.inode r)).take n).length = n := by
    rw [List.length_take, length_fileBytes, Nat.min_eq_left hn]
  refine List.ext_getElem ?_ fun p hp hp' => ?_
  · rw [length_fileBytes, h.size, List.length_append, htake, List.length_map, List.length_range]
  · have hlt : p < n + len := by rwa [length_fileBytes, h.size] at hp
    have hleft : (fileBytes s'.dev.vol (s'.dev.vol.inode r))[p] =
        fileByte s'.dev.vol (s'.dev.vol.inode r) p := by
      simp only [fileBytes, List.getElem_map, List.getElem_range]
    rw [hleft, h.bytes p hlt, overlay]
    by_cases hin : p < n
    · rw [if_neg (by omega), List.getElem_append_left (by rwa [htake])]
      simp only [List.getElem_take, fileBytes, List.getElem_map, List.getElem_range]
    · rw [if_pos ⟨not_lt.mp hin, hlt⟩,
        List.getElem_append_right (by rw [htake]; exact not_lt.mp hin)]
      simp only [List.getElem_map, List.getElem_range, htake]

theorem Tidy.write (buf : Nat → UInt8) (h : Tidy s) (hc : s.file r = some c)
    (hfits : Fits c.length offset.toNat len.toNat s.gdt.freeBlocksCount.toNat) :
    ∃ s', Ext2.write s r offset buf len = .ok (len.toNat, s') ∧ Tidy s' ∧
      s'.file r = some (c.take offset.toNat ++ (List.range len.toNat).map buf) ∧
      (∀ i, i ≠ r → s'.file i = s.file i) ∧
      s'.gdt.freeBlocksCount.toNat + blocksFor (offset.toNat + len.toNat) =
        s.gdt.freeBlocksCount.toNat + blocksFor c.length := by
  obtain ⟨⟨hlive, hfile, hmode⟩, rfl⟩ := of_file hc
  have hsized := h.sized ⟨hlive, hfile, hmode⟩
  have hlength := length_fileBytes s.dev.vol (s.dev.vol.inode r)
  rw [hlength] at hfits ⊢
  have hroom := hfits.room
  unfold blocksFor at hroom
  have hexact := hsized.exact
  have hw : Writable s r offset.toNat len.toNat :=
    ⟨hlive, hfile, hmode, hsized, hfits.inside, hfits.fits, by rwa [hexact]⟩
  obtain ⟨s', hrun, hwrote, hcons⟩ := write_ok buf h.1 hw
  rw [(stored_eq_iff _ _).mpr hfits.aligned] at hrun hwrote
  have hregular : ∀ i, Regular s' i ↔ Regular s i := by
    intro i
    unfold Regular Vol.Live
    rw [hwrote.inodeMap]
    rcases eq_or_ne i r with rfl | hne
    · rw [hwrote.mode]
    · rw [hwrote.inodes i hne]
  have hexact' := hwrote.sized.exact
  have hfree := hwrote.free
  rw [hexact, hexact', hwrote.size] at hfree
  refine ⟨s', hrun, ⟨hcons, fun {i} hi => ?_⟩, ?_, fun i hne => ?_, hfree⟩
  · rcases eq_or_ne i r with rfl | hne
    · exact hwrote.sized
    · rw [hwrote.inodes i hne]
      exact h.sized ((hregular i).mp hi)
  · rw [Fs.file, if_pos ((hregular r).mpr ⟨hlive, hfile, hmode⟩), hwrote.appends hfits.inside]
  · refine file_congr hwrote.inodeMap (hwrote.inodes i hne) fun hi => ?_
    refine List.map_congr_left fun p hp => ?_
    have hp := List.mem_range.mp hp
    have hblocks := (h.sized hi).exact
    rw [fileByte, hwrote.contents i hi.1 hne _ (by rw [hblocks]; unfold blkSize; omega), fileByte]

/-- `ext2_read` changes the two buffers it reads into. -/
theorem readBlocks_frame {size first n i ret ret' : Nat} {buf' : Nat → UInt8} {skip : Nat}
    (h : readBlocks size offset skip first n i ret buf s = .ok (ret', buf', s')) :
    s' = { s with datablockbuf := s'.datablockbuf } := by
  induction n generalizing i ret buf s with
  | zero =>
    cases h
    rfl
  | succ n ih =>
    obtain ⟨_, -, h⟩ := bind_eq_ok.mp h
    obtain ⟨s₁, hread, h⟩ := bind_eq_ok.mp h
    obtain ⟨_, -, hread⟩ := bind_eq_ok.mp hread
    cases hread
    obtain ⟨_, -, h⟩ := bind_eq_ok.mp h
    split at h
    · cases h
      rfl
    · have hframe := ih h
      exact hframe

theorem read_frame {n : Nat} {buf' : Nat → UInt8}
    (h : read s r offset buf len = .ok (n, buf', s')) :
    s' = { s with ind := s'.ind, datablockbuf := s'.datablockbuf } := by
  obtain ⟨s₁, hread, h⟩ := bind_eq_ok.mp h
  obtain ⟨_, -, hread⟩ := bind_eq_ok.mp hread
  cases hread
  have hframe := readBlocks_frame h
  rw [hframe]

/-- The bytes lie in one block of the file. -/
def ReadsInside (size offset len : Nat) : Prop :=
  offset ≤ size ∧ offset % blkSize + min len (size - offset) ≤ blkSize

instance (size offset len : Nat) : Decidable (ReadsInside size offset len) :=
  inferInstanceAs (Decidable (_ ∧ _))

/-- A call of `ext2_read` leaves the volume and what is known about it. -/
theorem Consistent.read {n : Nat} {buf' : Nat → UInt8} (h : Consistent s)
    (hrun : Ext2.read s r offset buf len = .ok (n, buf', s')) (hdev : s'.dev = s.dev) :
    Consistent s' := by
  rw [read_frame hrun] at hdev ⊢
  refine ⟨?_, ?_, h.lastBlock, h.lastInode, ?_, ?_⟩
  · rw [hdev]
    exact h.room
  · rw [hdev]
    exact h.sound
  · rw [hdev]
    exact h.freeBlocks
  · rw [hdev]
    exact h.freeInodes

/-- The bytes of the buffer as a part of the file. -/
theorem map_eq_take_drop {v : Vol} {x : Inode} {o m n : Nat} {buf' : Nat → UInt8}
    (hn : n = min m (x.size.toNat - o)) (h : ∀ k, k < n → buf' k = fileByte v x (o + k)) :
    (List.range n).map buf' = ((fileBytes v x).drop o).take m := by
  refine List.ext_getElem ?_ fun p hp hp' => ?_
  · rw [List.length_map, List.length_range, List.length_take, List.length_drop, length_fileBytes,
      hn]
  · have hlt : p < n := by rwa [List.length_map, List.length_range] at hp
    simp only [List.getElem_map, List.getElem_range, List.getElem_take, List.getElem_drop,
      fileBytes]
    exact h p hlt

theorem Tidy.read (buf : Nat → UInt8) (h : Tidy s) (hc : s.file r = some c)
    (hin : ReadsInside c.length offset.toNat len.toNat) :
    ∃ n buf' s', Ext2.read s r offset buf len = .ok (n, buf', s') ∧ Tidy s' ∧ s'.file = s.file ∧
      s'.gdt = s.gdt ∧ n = min len.toNat (c.length - offset.toNat) ∧
      (List.range n).map buf' = (c.drop offset.toNat).take len.toNat := by
  obtain ⟨hreg, rfl⟩ := of_file hc
  rw [length_fileBytes] at hin ⊢
  obtain ⟨n, buf', s', hrun, hdev, hn, hbytes, -⟩ :=
    read_right h.room hreg.1.1 (h.sized hreg) (.inr (.inl hin))
  have hfile : s'.file = s.file := by
    funext i
    have hiff : Regular s' i ↔ Regular s i := by
      unfold Regular
      rw [hdev]
    unfold Fs.file
    by_cases hi : Regular s i
    · rw [if_pos hi, if_pos (hiff.mpr hi), hdev]
    · rw [if_neg hi, if_neg fun hi' => hi (hiff.mp hi')]
  refine ⟨n, buf', s', hrun, ⟨h.1.read hrun hdev, fun {i} hi => ?_⟩, hfile, by rw [read_frame hrun],
    hn, map_eq_take_drop hn hbytes⟩
  rw [hdev]
  refine h.sized ?_
  unfold Regular at hi ⊢
  rwa [hdev] at hi

/-! ## Both calls on any file -/

/-- `ext2_read` returns the number of bytes that the file has from `offset` on, at most `len`, and
stores these bytes and their terminator. -/
def ReadsContent (s : Fs) (r : UInt32) (c : List UInt8) (offset : UInt64) (buf : Nat → UInt8)
    (len : UInt32) : Prop :=
  ∃ n buf' s', Ext2.read s r offset buf len = .ok (n, buf', s') ∧ Consistent s' ∧
    s'.dev = s.dev ∧ n = min len.toNat (c.length - offset.toNat) ∧
    (List.range n).map buf' = (c.drop offset.toNat).take len.toNat ∧ ∀ k, n < k → buf' k = buf k

/-- For every file in use, with the blocks that its size takes. -/
theorem read_content_iff (buf : Nat → UInt8) (h : Consistent s) (hr : s.dev.vol.Live r)
    (hx : Sized (s.dev.vol.inode r)) :
    ReadsContent s r (fileBytes s.dev.vol (s.dev.vol.inode r)) offset buf len ↔
      WithinBlock (s.dev.vol.inode r) offset.toNat len.toNat := by
  unfold ReadsContent
  rw [length_fileBytes]
  constructor
  · rintro ⟨n, buf', s', hrun, -, -, hn, -⟩
    exact withinBlock_of_read h.room hr.1 hx hrun hn
  · intro hw
    obtain ⟨n, buf', s', hrun, hdev, hn, hbytes, hkeep⟩ := read_right h.room hr.1 hx hw
    exact ⟨n, buf', s', hrun, h.read hrun hdev, hdev, hn, map_eq_take_drop hn hbytes, hkeep⟩

/-- `ext2_write` cuts the file at `offset` and appends the text. The file has the blocks for it,
those that it needs no more are free, and every other inode keeps its blocks and their bytes. -/
def WritesContent (s : Fs) (r : UInt32) (c : List UInt8) (offset : UInt64) (buf : Nat → UInt8)
    (len : UInt32) : Prop :=
  ∃ s', Ext2.write s r offset buf len = .ok (len.toNat, s') ∧ Consistent s' ∧
    Sized (s'.dev.vol.inode r) ∧ (s'.dev.vol.inode r).size.toNat = offset.toNat + len.toNat ∧
    fileBytes s'.dev.vol (s'.dev.vol.inode r) =
      c.take offset.toNat ++ (List.range len.toNat).map buf ∧
    (∀ i, s.dev.vol.Live i → i ≠ r → s'.dev.vol.Live i ∧
      s'.dev.vol.inode i = s.dev.vol.inode i ∧
      ∀ k, k < (s.dev.vol.inode i).blocks.toNat →
        s'.dev.vol.block ((s.dev.vol.inode i).blk k) =
          s.dev.vol.block ((s.dev.vol.inode i).blk k)) ∧
    ∀ k, k < (s.dev.vol.inode r).blocks.toNat →
      (∀ k', k' < (s'.dev.vol.inode r).blocks.toNat →
        (s'.dev.vol.inode r).blk k' ≠ (s.dev.vol.inode r).blk k) →
      s'.dev.vol.blockMap.bit ((s.dev.vol.inode r).blk k).toNat = false

/-- For every file that can be written, with room for the text. -/
theorem write_content_iff (buf : Nat → UInt8) (h : Consistent s)
    (hw : Writable s r offset.toNat len.toNat) :
    WritesContent s r (fileBytes s.dev.vol (s.dev.vol.inode r)) offset buf len ↔
      Aligned offset.toNat len.toNat := by
  obtain ⟨s', hrun, hwrote, hcons⟩ := write_ok buf h hw
  rw [← stored_eq_iff]
  constructor
  · rintro ⟨s'', hrun', -⟩
    rw [hrun] at hrun'
    exact congrArg Prod.fst (Except.ok.inj hrun')
  · intro hall
    rw [hall] at hrun hwrote
    refine ⟨s', hrun, hcons, hwrote.sized, hwrote.size, hwrote.appends hw.inside,
      fun i hi hne => ⟨?_, hwrote.inodes i hne, hwrote.contents i hi hne⟩, hwrote.freed⟩
    rw [Vol.Live, hwrote.inodeMap]
    exact hi

end Calls

/-- On a clean device the two files of `ext2_init` are such files. -/
theorem Made.tidy {d : Device} {name : CStr} {s : Fs} {b₀ b₁ b₂ c₀ c₁ c₂ j₁ j₂ : Nat}
    (h : Made d name s b₀ b₁ b₂ c₀ c₁ c₂ j₁ j₂) (hd : d.Clean) (hname : name.length < 16) :
    Tidy s where
  toConsistent := h.consistent hd hname
  sized := by
    rintro r ⟨hlive, hfile, -⟩
    obtain ⟨hpos, hle, hpos', hle'⟩ := of_helloStr
    obtain ⟨-, hlt, -⟩ := h.blocks.spec (by decide)
    obtain ⟨b, c, hmem, rfl, -, -⟩ := (h.live_iff hd).mp hlive
    simp only [List.mem_cons, Prod.mk.injEq, List.not_mem_nil, or_false] at hmem
    rcases hmem with ⟨rfl, -⟩ | ⟨rfl, -⟩ | ⟨rfl, -⟩
    · rw [← h.dir, h.rootMode] at hfile
      exact absurd hfile (by decide)
    · exact h.hello.sized (isBlock_ofNat (hlt b₁ (by simp)).1) hpos hle
    · exact h.label.sized (isBlock_ofNat (hlt b₂ (by simp)).1) hpos' hle'

/-- `ext2_init` makes a tidy volume. -/
theorem init_tidy {d : Device} (name : CStr) (h : d.Room) (hd : d.Clean)
    (hname : name.length < 16) :
    ∃ s, init d name = .ok s ∧ Tidy s := by
  obtain ⟨s, hrun⟩ := init_ok h hd hname
  obtain ⟨b₀, b₁, b₂, c₀, c₁, c₂, j₁, j₂, hmade⟩ := of_init h hname hrun
  exact ⟨s, hrun, hmade.tidy hd hname⟩

/-- On a new file system `hello.cpp` can be written up to 6144 bytes. -/
theorem init_writable {len : Nat} (hlen : len ≤ ext2NBlocks * blkSize) :
    ∃ s r, init (.zero rdSize) (.lit "ramdisk1") = .ok s ∧ Consistent s ∧ Writable s r 0 len ∧
      (s.dev.vol.inode r).size.toNat = helloStr.length := by
  obtain ⟨s, r, hrun, hcons, hlive, hmode, hsized, hsize, hfree⟩ := init_file
  refine ⟨s, r, hrun, hcons, ⟨hlive, by rw [hmode]; decide, by rw [hmode]; decide, hsized,
    Nat.zero_le _, by rwa [Nat.zero_add], ?_⟩, hsize⟩
  rw [hfree, show (4093 : UInt16).toNat = 4093 from rfl]
  unfold ext2NBlocks blkSize at *
  omega

theorem read_content_iff_hello : ∃ s r, init (.zero rdSize) (.lit "ramdisk1") = .ok s ∧
    ReadsContent s r (fileBytes s.dev.vol (s.dev.vol.inode r)) 10 (fun _ => 0) 200 := by
  obtain ⟨s, r, hrun, hcons, hw, hsize⟩ := init_writable (Nat.zero_le _)
  refine ⟨s, r, hrun, (read_content_iff _ hcons hw.live hw.sized).mpr (.inr (.inl ?_))⟩
  rw [hsize]
  decide

/-- Behind the end of a file of one block the call returns what the block holds there. -/
theorem hello_read_behind : ∃ s r, init (.zero rdSize) (.lit "ramdisk1") = .ok s ∧
    Consistent s ∧ s.dev.vol.Live r ∧ has (s.dev.vol.inode r).mode typeDir = false ∧
    Sized (s.dev.vol.inode r) ∧
    ¬ReadsContent s r (fileBytes s.dev.vol (s.dev.vol.inode r)) 200 (fun _ => 0) 10 := by
  obtain ⟨s, r, hrun, hcons, hw, hsize⟩ := init_writable (Nat.zero_le _)
  refine ⟨s, r, hrun, hcons, hw.live, hw.file, hw.sized, ?_⟩
  rintro ⟨n, buf', s', hread, -, -, hn, -⟩
  rw [length_fileBytes] at hn
  rcases withinBlock_of_read hcons.room hw.live.1 hw.sized hread hn with hlen | ⟨hle, -⟩ | hbehind
  · exact absurd hlen (by decide)
  · rw [hsize] at hle
    exact absurd hle (by decide)
  · have hexact := hw.sized.exact
    rw [hsize] at hexact
    have hle := hexact ▸ hbehind.2
    exact absurd hle (by decide)

theorem write_content_iff_hello : ∃ s r, init (.zero rdSize) (.lit "ramdisk1") = .ok s ∧
    WritesContent s r (fileBytes s.dev.vol (s.dev.vol.inode r)) 0 (fun _ => 0x61) 513 := by
  obtain ⟨s, r, hrun, hcons, hw, -⟩ := init_writable (show 513 ≤ ext2NBlocks * blkSize by decide)
  exact ⟨s, r, hrun, (write_content_iff _ hcons hw).mpr (.inr (by decide))⟩

/-- Of 600 bytes for `hello.cpp` the last block gets half of its 88. -/
theorem hello_written_short : ∃ s r, init (.zero rdSize) (.lit "ramdisk1") = .ok s ∧
    Consistent s ∧ Writable s r 0 600 ∧
    ¬WritesContent s r (fileBytes s.dev.vol (s.dev.vol.inode r)) 0 (fun _ => 0x61) 600 := by
  obtain ⟨s, r, hrun, hcons, hw, -⟩ := init_writable (show 600 ≤ ext2NBlocks * blkSize by decide)
  refine ⟨s, r, hrun, hcons, hw, ?_⟩
  rintro ⟨s', hwrite, -⟩
  have hw' : Writable s r (0 : UInt64).toNat (600 : UInt32).toNat := hw
  obtain ⟨s'', hwrite', -⟩ := write_ok (fun _ => 0x61) hcons hw'
  rw [hwrite] at hwrite'
  have hn : 600 = stored 0 600 := congrArg Prod.fst (Except.ok.inj hwrite')
  exact absurd hn (by decide)

end OsWorkbench.Ext2
