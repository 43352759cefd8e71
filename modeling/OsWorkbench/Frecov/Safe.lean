import OsWorkbench.Frecov.Ends

/-!
# Which images are scanned safely

The scan ends with all accesses in the image and in the arrays exactly where the image has a
sector size and the first bytes of a table at a multiple of it, and where in every state on the
way the entry that is read is in the image and fits, a sector that is looked up has another number
than `0xffff`, and there is a file to look at.
-/

namespace OsWorkbench.Frecov

open Traced

/-! ## The conditions -/

/-- The first bytes of a file allocation table stand where the search looks for them. -/
def HasTable (img : List UInt8) : Prop :=
  ∃ k : Nat, fatSignature <+: img.drop (k * (sectorSizeOf img).toNat)

/-- What the image and the state must be like where the scan gets to. -/
def Visit.Fits (img : List UInt8) : Visit → Prop
  | .lookup idx => visitIndex idx < visitLength
  | .entry p s =>
    (∀ i ∈ (entryAt img p).readOffsets s.top, InImage img (p + (i : Nat))) ∧
      EntryFits (entryAt img p) s
  | .read _ => True
  | .latest s => 0 ≤ actualTotFile s

def Visit.InBounds : Visit → Prop
  | .lookup _ => True
  | .entry _ s => s.InBounds
  | .read s => s.InBounds
  | .latest s => s.InBounds

/-! ## The loops -/

theorem Sound.setVisit {s : Scan} (h : Sound s) (k : Nat) : Sound (setVisit s k) :=
  ⟨⟨h.top, h.low, h.high, h.names⟩, h.blank, h.pending, h.unnamed, h.slot⟩

theorem Sound.setVisited {s : Scan} (h : Sound s) (i : Nat) : Sound (setVisited s i) := by
  have hname : ∀ j, ((Frecov.setVisited s i).file j).filename = (s.file j).filename := by
    intro j
    show (Function.update s.file i _ j).filename = _
    by_cases hj : j = i
    · rw [hj, Function.update_self]
    · rw [Function.update_of_ne hj]
  refine ⟨⟨h.top, h.low, h.high, fun j => ?_⟩, h.blank, h.pending,
    fun j hj => (hname j).trans (h.unnamed j hj),
    fun htop j hj => (hname j).trans (h.slot htop j hj)⟩
  rw [hname]
  exact h.names j

section Loops

variable {img : List UInt8} {s : Scan}

/-- The rules of the scan. -/
abbrev Runs (img : List UInt8) {α : Type} (m : Traced Fault Visit α) (Q : α → Prop) :
    Prop :=
  m.Exact (Visit.Fits img) Visit.InBounds .diverges Q

theorem readSector_runs (hsize : 0 < sectorSizeOf img) (n : Nat) (p : Int) (hs : Sound s) :
    Runs img (readSector img (sectorSizeOf img) n p s) Sound := by
  induction n generalizing p s with
  | zero => exact .pure hs
  | succ n ih =>
    refine .emit_lift_emit_bind (fun hfits => ?_) (fun t hread hin => ?_) (fun _ => trivial)
      fun t ht => ih (p + 0x20) ht
    · obtain ⟨t, hstep, ht⟩ := hs.step (sectorSizeOf img) hfits.2
      exact ⟨hs.toInBounds, t, (readNamePosition_eq_ok hsize).mpr ⟨hfits.1, hstep⟩, ht.toInBounds⟩
    · obtain ⟨hreads, hstep⟩ := (readNamePosition_eq_ok hsize).mp hread
      have hfits := hs.fits hstep hin
      obtain ⟨t', hstep', ht'⟩ := hs.step (sectorSizeOf img) hfits
      cases hstep.symm.trans hstep'
      exact ⟨⟨hreads, hfits⟩, ht'⟩

theorem searchBmpNamePosition_runs (hsize : 0 < sectorSizeOf img) (hs : Sound s)
    (offset idx : Int) :
    Runs img (searchBmpNamePosition img (sectorSizeOf img) offset idx s) fun r => Sound r.2 := by
  rw [searchBmpNamePosition]
  split
  · exact .pure hs
  · have hlookup : ∀ k, index (visitIndex idx) visitLength = .ok k →
        (Visit.lookup idx).Fits img ∧ True := by
      intro k hk
      obtain ⟨hcast, hlt⟩ := index_eq_ok.mp hk
      exact ⟨Nat.lt_of_le_of_lt (Int.ofNat_le.mp hcast.le) hlt, trivial⟩
    have hindex : (Visit.lookup idx).Fits img → (Visit.lookup idx).InBounds ∧
        ∃ k, index (visitIndex idx) visitLength = .ok k := by
      intro hfits
      have hlt : visitIndex idx < visitLength := hfits
      exact ⟨trivial, _, index_nat hlt⟩
    refine .emit_lift_bind hindex hlookup fun k _ => ?_
    split
    · exact .pure hs
    · exact .bind (readSector_runs hsize _ offset (hs.setVisit k)) fun t ht => .pure ht

theorem deepSearchBmpNamePosition_runs (hsize : 0 < sectorSizeOf img) (hs : Sound s)
    (offset : Int) :
    Runs img (deepSearchBmpNamePosition img (sectorSizeOf img) offset s) fun r => Sound r.2 := by
  have hlt : actualTotFile s < fileLength := by
    have hhigh := hs.high
    rw [actualTotFile]
    split <;> omega
  rw [deepSearchBmpNamePosition]
  refine .emit_lift_bind (fun hfits => ⟨hs.toInBounds, _, if_pos ⟨hfits, hlt⟩⟩)
    (fun i hi => ⟨?_, trivial⟩) fun i _ => ?_
  · have hcast := (index_eq_ok.mp hi).1
    show 0 ≤ actualTotFile s
    omega
  · split
    · exact .pure hs
    · dsimp only
      split
      · exact searchBmpNamePosition_runs hsize (hs.setVisited i) _ _
      · exact .pure (hs.setVisited i)

theorem deepLoop_runs (hsize : 0 < sectorSizeOf img) (offset : Int) (fuel : Nat) (hs : Sound s) :
    Runs img (deepLoop img (sectorSizeOf img) offset fuel s) Sound := by
  induction fuel generalizing s with
  | zero => exact .error
  | succ fuel ih =>
    refine .bind (deepSearchBmpNamePosition_runs hsize hs offset) fun r hr => ?_
    split
    · exact ih hr
    · exact .pure hr

theorem sectorLoop_runs {f : Fat32} (hf : f.sectorSize = sectorSizeOf img)
    (hsize : 0 < sectorSizeOf img) (dataStart : Int) (fuel : Nat) (i : Int) (hs : Sound s) :
    Runs img (sectorLoop img f dataStart fuel i s) Sound := by
  induction fuel generalizing i s with
  | zero => exact .error
  | succ fuel ih =>
    rw [sectorLoop]
    split
    · rw [hf]
      exact .bind (searchBmpNamePosition_runs hsize hs _ _) fun r hr => ih _ hr
    · exact .pure hs

end Loops

/-! ## The table -/

section Table

variable {img : List UInt8}

theorem matchesAt_eq_true {cs : List UInt8} {n : Nat} :
    matchesAt img cs n = .ok true ↔ cs <+: img.drop n := by
  induction cs generalizing n with
  | nil => exact iff_of_true rfl (List.nil_prefix)
  | cons c cs ih =>
    have hnext : (n : Int) + 1 = (n + 1 : Nat) := rfl
    by_cases hlt : n < img.length
    · have hbyte : byte img n = .ok img[n] := by
        rw [byte, index_bind hlt, pure_eq_ok, List.getD_eq_getElem _ _ hlt]
      rw [matchesAt, hbyte, ok_bind, List.drop_eq_getElem_cons hlt, List.cons_prefix_cons]
      by_cases hc : img[n] = c
      · rw [if_pos hc, hnext, ih]
        exact ⟨fun h => ⟨hc.symm, h⟩, And.right⟩
      · rw [if_neg hc]
        exact iff_of_false (by simp) fun h => hc h.1.symm
    · rw [List.drop_eq_nil_of_le (not_lt.mp hlt), List.prefix_nil]
      refine iff_of_false (fun h => ?_) (List.cons_ne_nil _ _)
      obtain ⟨b, hb, -⟩ := bind_eq_ok.mp h
      have hin := (byte_eq_ok.mp hb).1.2
      omega

theorem matchesAt_ok {cs : List UInt8} {n : Nat} (hlen : n + cs.length ≤ img.length) :
    ∃ b, matchesAt img cs n = .ok b := by
  induction cs generalizing n with
  | nil => exact ⟨true, rfl⟩
  | cons c cs ih =>
    rw [List.length_cons] at hlen
    have hlt : n < img.length := by omega
    have hnext : (n : Int) + 1 = (n + 1 : Nat) := rfl
    rw [matchesAt, byte, index_bind hlt, pure_eq_ok, ok_bind, hnext]
    split
    · exact ih (by omega)
    · exact ⟨false, rfl⟩

variable {sectorSize : Int} {fuel n : Nat}

/-- A table is found, or one before it. -/
theorem findFat_of_table (hlen : img.length ≤ imageSize) (h0 : 0 ≤ sectorSize)
    (hsmall : sectorSize < 2 ^ 16) {k : Nat} (hk : k < fuel)
    (htable : fatSignature <+: img.drop (n + k * sectorSize.toNat)) :
    ∃ fatBegin, findFat img sectorSize fuel n = .ok fatBegin := by
  induction k generalizing fuel n with
  | zero =>
    obtain ⟨fuel, rfl⟩ := Nat.exists_eq_succ_of_ne_zero hk.ne'
    rw [Nat.zero_mul, Nat.add_zero] at htable
    rw [findFat, matchesAt_eq_true.mpr htable]
    exact ⟨n, rfl⟩
  | succ k ih =>
    obtain ⟨fuel, rfl⟩ := Nat.exists_eq_succ_of_ne_zero (Nat.ne_of_gt (Nat.zero_lt_of_lt hk))
    have hroom := htable.length_le
    rw [List.length_drop] at hroom
    have hsig : fatSignature.length = 4 := rfl
    have hlen' : n + fatSignature.length ≤ img.length := by omega
    obtain ⟨b, hb⟩ := matchesAt_ok hlen'
    rw [findFat, hb, ok_bind]
    cases b with
    | true => exact ⟨n, rfl⟩
    | false =>
      rw [if_neg (by decide), wrap_next hlen h0 hsmall (lt_of_matchesAt_eq_false hb)]
      refine ih (Nat.lt_of_succ_lt_succ hk) ?_
      rwa [Nat.add_one_mul, Nat.add_comm _ sectorSize.toNat, ← Nat.add_assoc] at htable

end Table

/-! ## The whole scan -/

section Whole

variable {img : List UInt8}

/-- The fields of the boot sector. -/
def fat32Of (img : List UInt8) : Fat32 where
  sectorSize := sectorSizeOf img
  fatAmount := toInt ((entryAt img 0).num 0x10 1)
  sectorAmount :=
    if toInt ((entryAt img 0).num 0x13 2) = 0 then toInt ((entryAt img 0x20).num 0 4)
    else toInt ((entryAt img 0).num 0x13 2)
  fatSize := toInt ((entryAt img 0x20).num 4 4)

theorem toInt_isInt (n : Nat) : IsInt (toInt n) := wrap_isInt n

theorem sectorAmount_isInt (img : List UInt8) : IsInt (fat32Of img).sectorAmount := by
  rw [fat32Of]
  dsimp only
  split
  · exact toInt_isInt _
  · exact toInt_isInt _

theorem entryAt_storedAt_image {p : Int} (h0 : 0 ≤ p) (hlen : p + 32 ≤ img.length) :
    (entryAt img p).StoredAt img p (List.range 32) :=
  entryAt_storedAt (fun i hi => List.mem_range.mp hi) fun i hi => by
    have hi := List.mem_range.mp hi
    exact ⟨by omega, by omega⟩

theorem readFat32Info_eq (hlen : img.length = imageSize) :
    readFat32Info img = .ok (fat32Of img) := by
  have hsize : (img.length : Int) = 2 ^ 26 := by rw [hlen]; rfl
  have hlow : (entryAt img 0).StoredAt img 0 _ := entryAt_storedAt_image le_rfl (by omega)
  have hhigh : (entryAt img 0x20).StoredAt img 0x20 _ :=
    entryAt_storedAt_image (by decide) (by omega)
  have hsub : ∀ i len : Nat, i + len ≤ 32 → List.range' i len ⊆ List.range 32 := by
    intro i len hi j hj
    have hj := List.mem_range'_1.mp hj
    exact List.mem_range.mpr (by omega)
  have hread : ∀ i len : Nat, i + len ≤ 32 →
      readNum img i len = .ok (toInt ((entryAt img 0).num i len)) := by
    intro i len hi
    rw [← readNum_spec (hlow.mono (hsub i len hi)), zero_add]
  have h0b : readNum img 0x0b 2 = _ := hread 0x0b 2 (by decide)
  have h10 : readNum img 0x10 1 = _ := hread 0x10 1 (by decide)
  have h13 : readNum img 0x13 2 = _ := hread 0x13 2 (by decide)
  have h20 : readNum img (0x20 + (0 : Nat)) 4 = _ :=
    readNum_spec (hhigh.mono (hsub 0 4 (by decide)))
  have h24 : readNum img (0x20 + (4 : Nat)) 4 = _ :=
    readNum_spec (hhigh.mono (hsub 4 4 (by decide)))
  have hss : toInt ((entryAt img 0).num 0x0b 2) = sectorSizeOf img :=
    toInt_small (((entryAt img 0).num_lt 0x0b 2).trans (by decide))
  have hamount : readSectorAmount img = .ok (fat32Of img).sectorAmount := by
    rw [readSectorAmount, h13, ok_bind, fat32Of]
    by_cases h0 : toInt ((entryAt img 0).num 0x13 2) = 0
    · rw [if_pos h0, if_pos h0, ← h20, Nat.cast_zero, add_zero]
    · rw [if_neg h0, if_neg h0, pure_eq_ok]
  rw [readFat32Info, h0b, ok_bind, h10, ok_bind, hamount, ok_bind, hss]
  show (readNum img (0x20 + (4 : Nat)) 4 >>= _) = _
  rw [h24, ok_bind, pure_eq_ok, fat32Of]

theorem sectorSizeOf_pos (hsize : sectorSizeOf img ≠ 0) : 0 < sectorSizeOf img :=
  lt_of_le_of_ne (sectorSizeOf_nonneg img) hsize.symm

/-- The scan never runs forever. -/
theorem scan_ends (hlen : img.length = imageSize) (hsize : sectorSizeOf img ≠ 0) :
    (scan img).val ≠ .error .diverges := by
  have hpos := sectorSizeOf_pos hsize
  have hamount := sectorAmount_isInt img
  have hfind : findFat img (sectorSizeOf img) (img.length + 1) (0 : Nat) ≠ .error .diverges :=
    findFat_ne_diverges hlen.le hpos (sectorSizeOf_lt img) (Nat.succ_pos _) (Nat.lt_succ_self _)
  have hends : Ends (scan img) fun _ => True := by
    rw [scan]
    refine .lift_bind (readFat32Info_eq hlen) ?_
    refine .bind (.lift hfind fun _ _ => trivial) fun fatBegin _ => ?_
    rw [searchAll]
    refine .bind (.lift (sectors_ne_diverges _ _) fun _ _ => trivial) fun dataStart _ => ?_
    refine .bind (searchBmpNamePosition_ends hpos _ _ _) fun first _ => ?_
    have hunread : unread first.2 < visitLength + 2 := by
      have hle : unread first.2 ≤ (List.range visitLength).length := List.countP_le_length
      rw [List.length_range] at hle
      omega
    refine .bind (deepLoop_ends hpos _ hunread) fun s _ => ?_
    refine sectorLoop_ends rfl hpos hamount ?_
    have hint := wrap_isInt (dataStart + wrap (4 - 2))
    unfold IsInt at hint hamount
    unfold loopBound
    omega
  exact hends.1

theorem scan_runs (hlen : img.length = imageSize) (hsize : sectorSizeOf img ≠ 0)
    (htable : HasTable img) : Runs img (scan img) Sound := by
  have hpos := sectorSizeOf_pos hsize
  have hf : (fat32Of img).sectorSize = sectorSizeOf img := rfl
  obtain ⟨k, hk⟩ := htable
  have hroom := hk.length_le
  rw [List.length_drop] at hroom
  have hsig : fatSignature.length = 4 := rfl
  have hkle : k ≤ k * (sectorSizeOf img).toNat := Nat.le_mul_of_pos_right k (by omega)
  rw [← Nat.zero_add (k * _)] at hk
  have hfuel : k < img.length + 1 := by omega
  obtain ⟨fatBegin, hfind⟩ :=
    findFat_of_table hlen.le (sectorSizeOf_nonneg img) (sectorSizeOf_lt img) hfuel hk
  rw [scan]
  refine .lift_bind (readFat32Info_eq hlen) (.lift_bind hfind ?_)
  rw [searchAll, hf]
  refine .lift_bind (if_neg hsize) ?_
  refine .bind (searchBmpNamePosition_runs hpos .start _ _) fun first hfirst => ?_
  exact .bind (deepLoop_runs hpos _ _ hfirst) fun s hs => sectorLoop_runs hf hpos _ _ _ hs

end Whole

/-! ## Images of one file -/

/-- A boot sector of 64 bytes that starts like a table. -/
def bootLow : Entry where
  bytes := fatSignature ++ List.replicate 7 0 ++ [64] ++ List.replicate 20 0
  size := rfl

def bootHigh : Entry where
  bytes := List.replicate 32 0
  size := rfl

/-- An image of one file with the name `"a"`. -/
def imageOf (short : Entry) : List UInt8 :=
  image [bootLow, bootHigh, longA, short] ++ List.replicate (imageSize - 128) 0

theorem length_image (es : List Entry) : (image es).length = 32 * es.length := by
  induction es with
  | nil => rfl
  | cons e es ih =>
    rw [image, List.flatMap_cons, List.length_append, e.size, List.length_cons]
    rw [image] at ih
    omega

theorem entryAt_image (pre : List UInt8) (e : Entry) (post : List UInt8) :
    entryAt (pre ++ (e.bytes ++ post)) pre.length = e := by
  have hbytes : (entryAt (pre ++ (e.bytes ++ post)) pre.length).bytes = e.bytes := by
    refine List.ext_getElem ((entryAt _ _).size.trans e.size.symm) fun i hi hi' => ?_
    rw [(entryAt _ _).size] at hi
    have hat := storedAt_image pre e post i (List.mem_range.mpr hi)
    have hget := (byte_eq_ok.mp hat).2
    rw [← entryAt_at' hi, Entry.at', Entry.at', List.getD_eq_getElem _ _ hi',
      List.getD_eq_getElem _ _ (by rwa [(entryAt _ _).size])] at hget
    exact hget
  exact Entry.ext hbytes

section ImageOf

variable {short : Entry}

theorem imageOf_length (short : Entry) : (imageOf short).length = imageSize := by
  rw [imageOf, List.length_append, length_image, List.length_replicate, List.length_cons,
    List.length_cons, List.length_cons, List.length_singleton]
  unfold imageSize
  omega

theorem entryAt_row {es : List Entry} {i : Nat} {e : Entry} (h : es[i]? = some e)
    (post : List UInt8) : entryAt (image es ++ post) (32 * i : Nat) = e := by
  obtain ⟨hi, he⟩ := List.getElem?_eq_some_iff.mp h
  have hsplit : image es = image (es.take i) ++ (e.bytes ++ image (es.drop (i + 1))) := by
    rw [image, image, image, ← List.flatMap_cons, ← he, ← List.drop_eq_getElem_cons hi,
      ← List.flatMap_append, List.take_append_drop]
  have hpre : (image (es.take i)).length = 32 * i := by
    rw [length_image, List.length_take_of_le hi.le]
  rw [hsplit, List.append_assoc, List.append_assoc, ← hpre]
  exact entryAt_image _ e _

theorem entryAt_boot (short : Entry) : entryAt (imageOf short) 0 = bootLow := by
  rw [imageOf]
  exact entryAt_row (i := 0) rfl _

theorem entryAt_boot' (short : Entry) : entryAt (imageOf short) 0x20 = bootHigh := by
  rw [imageOf]
  exact entryAt_row (i := 1) rfl _

theorem entryAt_long (short : Entry) : entryAt (imageOf short) 64 = longA := by
  rw [imageOf]
  exact entryAt_row (i := 2) rfl _

theorem entryAt_short (short : Entry) : entryAt (imageOf short) (64 + 0x20) = short := by
  rw [imageOf]
  exact entryAt_row (i := 3) rfl _

theorem fat32Of_imageOf (short : Entry) : fat32Of (imageOf short) = ⟨64, 0, 0, 0⟩ := by
  rw [fat32Of, sectorSizeOf, entryAt_boot, entryAt_boot']
  decide +kernel

theorem table_imageOf (short : Entry) : fatSignature <+: imageOf short := by
  rw [imageOf, image, List.flatMap_cons, List.append_assoc]
  have hboot : fatSignature <+: bootLow.bytes :=
    ⟨List.replicate 7 0 ++ [64] ++ List.replicate 20 0, by decide⟩
  exact hboot.trans (List.prefix_append _ _)

theorem hasTable_imageOf (short : Entry) : HasTable (imageOf short) := by
  refine ⟨0, ?_⟩
  rw [Nat.zero_mul]
  exact table_imageOf short

theorem findFat_imageOf (short : Entry) (fuel : Nat) :
    findFat (imageOf short) 64 (fuel + 1) 0 = .ok 0 := by
  have hfound : matchesAt (imageOf short) fatSignature (0 : Nat) = .ok true :=
    matchesAt_eq_true.mpr (table_imageOf short)
  rw [findFat]
  exact congrArg (· >>= _) hfound

theorem sectorSizeOf_imageOf (short : Entry) : sectorSizeOf (imageOf short) = 64 :=
  congrArg Fat32.sectorSize (fat32Of_imageOf short)

/-- The state behind the piece of the name. -/
def named : Scan := (setVisit .start 3).claim.push longA

/-- The state behind the file. -/
def foundOf (short : Entry) : Scan := named.close 64 0 groupA.str short

theorem named_text : stackText named.buf named.top = [97] := by decide +kernel

theorem step_longA : step 64 (setVisit .start 3) longA = .ok named := by
  rw [step, if_pos (by decide +kernel), inBounds_bind (by decide)]
  rfl

theorem step_short (hshort : ¬short.IsLong) : step 64 named short = .ok (foundOf short) := by
  have hblank : Blank named.buf := Blank.push (s := setVisit .start 3) (fun _ _ _ => rfl) longA
  have hone : named.top ≤ bufRows := by decide
  have hholds := hblank.holds hone
  have hpop : popPieces named.buf named.top noName = .ok groupA.str := by
    rw [hholds.pop (by rw [named_text]; decide) (stackText_noNul _ _)]
    exact congrArg Except.ok (CStr.ext named_text)
  have hindex : index (named.totFile - 1) fileLength = .ok 0 := by decide
  rw [step, if_neg hshort, if_neg (by decide), hindex, ok_bind]
  show (popPieces named.buf named.top noName >>= _) = _
  rw [hpop]
  rfl

/-- The rule for the runs below. -/
abbrev Logs (short : Entry) {α : Type} (m : Traced Fault Visit α) (Q : α → Prop) : Prop :=
  m.Within (Visit.Fits (imageOf short)) Q

theorem readEntry_logs {p : Int} {s t : Scan} (h0 : 0 ≤ p) (hp : p ≤ 1024)
    (hfits : EntryFits (entryAt (imageOf short) p) s)
    (hstep : step 64 s (entryAt (imageOf short) p) = .ok t) {n : Nat} {Q : Scan → Prop}
    (hrest : Logs short (readSector (imageOf short) 64 n (p + 0x20) t) Q) :
    Logs short (readSector (imageOf short) 64 (n + 1) p s) Q := by
  have hreads : ∀ i ∈ (entryAt (imageOf short) p).readOffsets s.top,
      InImage (imageOf short) (p + (i : Nat)) := by
    intro i hi
    have hlt := Entry.readOffsets_lt _ _ i hi
    refine ⟨by omega, ?_⟩
    rw [imageOf_length, imageSize]
    omega
  have hread : readNamePosition (imageOf short) 64 p s = .ok t :=
    (readNamePosition_eq_ok (by decide)).mpr ⟨hreads, hstep⟩
  exact .bind (.emit ⟨hreads, hfits⟩) fun _ _ => .lift_bind hread
    (.bind (.emit trivial) fun _ _ => hrest)

/-- The file is read from the first sector. -/
theorem first_logs (hshort : ¬short.IsLong) :
    Logs short (searchBmpNamePosition (imageOf short) 64 64 3 .start)
      fun r => r.2 = foundOf short := by
  have hlong : EntryFits longA (setVisit .start 3) :=
    ⟨fun _ => ⟨by decide, fun _ => by decide⟩, fun _ htop => absurd rfl htop⟩
  have hfits : EntryFits short named := by
    refine ⟨fun h => absurd h hshort, fun _ _ => ?_⟩
    rw [named_text]
    decide
  have hlookup : visitIndex 3 < visitLength := by decide
  rw [searchBmpNamePosition, if_neg (by decide)]
  refine .bind (.emit hlookup) fun _ _ => .lift_bind (index_nat hlookup) ?_
  rw [if_neg (by decide)]
  refine .bind ?_ fun t ht => .pure ht
  show Logs short (readSector (imageOf short) 64 2 64 (setVisit .start 3)) fun t =>
    t = foundOf short
  refine readEntry_logs (by decide) (by decide) (by rwa [entryAt_long])
    (by rw [entryAt_long]; exact step_longA) ?_
  refine readEntry_logs (by decide) (by decide) (by rwa [entryAt_short])
    (by rw [entryAt_short]; exact step_short hshort) ?_
  exact .pure rfl

end ImageOf

/-- The second round reads an empty sector. -/
theorem second_logs :
    Logs shortA (deepSearchBmpNamePosition (imageOf shortA) 64 0 (foundOf shortA))
      fun r => r.1 = 0 := by
  have hactual : actualTotFile (foundOf shortA) = 0 := by decide +kernel
  have hindex : index (actualTotFile (foundOf shortA)) fileLength = .ok 0 := by rw [hactual]; rfl
  have hvisited : ((foundOf shortA).file 0).visited = false := by decide +kernel
  have hnext : ((foundOf shortA).file 0).nextSector = 15 := by decide +kernel
  have htot : (setVisited (foundOf shortA) 0).totFile = 1 := by decide +kernel
  have hlookup : visitIndex 15 < visitLength := by decide
  have hnew : (setVisited (foundOf shortA) 0).sectorVisit (visitIndex 15) = false := by
    decide +kernel
  have hoffset : wrap (0 + wrap (wrap (15 - 2) * 64)) = 832 := by decide
  set t := setVisit (setVisited (foundOf shortA) 0) (visitIndex 15) with ht
  have htop : t.top = 0 := rfl
  have hempty : ∀ e : Entry, ¬e.IsLong → EntryFits e t ∧ step 64 t e = .ok t := by
    intro e he
    refine ⟨⟨fun h => absurd h he, fun _ h => absurd htop h⟩, ?_⟩
    rw [step, if_neg he, if_pos htop]
  obtain ⟨hfits, hstep⟩ := hempty (entryAt (imageOf shortA) 832) (by decide +kernel)
  obtain ⟨hfits', hstep'⟩ := hempty (entryAt (imageOf shortA) (832 + 0x20)) (by decide +kernel)
  have hread : Logs shortA (readSector (imageOf shortA) 64 2 832 t) fun u => u = t :=
    readEntry_logs (by decide) (by decide) hfits hstep
      (readEntry_logs (by decide) (by decide) hfits' hstep' (.pure rfl))
  rw [deepSearchBmpNamePosition]
  refine .bind (.emit hactual.ge) fun _ _ => .lift_bind hindex ?_
  rw [if_neg (by rw [hvisited]; decide)]
  dsimp only
  rw [hnext, if_pos (by decide), hoffset, searchBmpNamePosition, htot, if_neg (by decide)]
  refine .bind (.emit hlookup) fun _ _ => .lift_bind (index_nat hlookup) ?_
  rw [if_neg (by rw [hnew]; decide), searchSector]
  refine .bind hread fun u hu => .pure ?_
  subst hu
  show wrap (t.totFile - t.totFile) = 0
  rw [sub_self]
  rfl

theorem imageOf_logs : Logs shortA (scan (imageOf shortA)) fun _ => True := by
  obtain ⟨n, hn⟩ : ∃ n, loopBound = n + 1 := ⟨2 ^ 32, by unfold loopBound; rfl⟩
  have hlast : ∀ s, Logs shortA (sectorLoop (imageOf shortA) ⟨64, 0, 0, 0⟩ 0 loopBound 4 s)
      fun _ => True := by
    intro s
    rw [hn, sectorLoop, if_neg (by decide)]
    exact .pure trivial
  have hdeep : Logs shortA (deepLoop (imageOf shortA) 64 0 (visitLength + 2) (foundOf shortA))
      fun _ => True := by
    obtain ⟨m, hm⟩ : ∃ m, visitLength + 2 = m + 1 := ⟨visitLength + 1, rfl⟩
    rw [hm, deepLoop]
    refine .bind second_logs fun r hr => ?_
    rw [if_neg (not_not.mpr hr)]
    exact .pure trivial
  rw [scan]
  refine .lift_bind (readFat32Info_eq (imageOf_length _)) ?_
  rw [fat32Of_imageOf]
  refine .lift_bind (findFat_imageOf _ _) ?_
  rw [searchAll]
  refine .lift_bind (show sectors _ 64 = .ok 0 from rfl) ?_
  refine .bind (first_logs groupA.notLong) fun r hr => ?_
  have hoffset : wrap (0 + wrap (wrap (0 * 0) * 64)) = 0 := by decide
  dsimp only
  rw [hr, hoffset]
  exact .bind hdeep fun s _ => hlast s

/-! ## Safety -/

section Safety

variable {img : List UInt8}

/-- The scan of an image with a sector size never runs forever. With a table, it ends without a
fault where all that it gets to is as it must be, and all variables stay in their bounds. -/
theorem scan_safe (hlen : img.length = imageSize) (hsize : sectorSizeOf img ≠ 0) :
    (scan img).val ≠ .error .diverges ∧
      (HasTable img → (∀ v ∈ (scan img).log, v.Fits img) →
        (∀ v ∈ (scan img).log, v.InBounds) ∧ ∃ s, (scan img).val = .ok s ∧ s.InBounds) := by
  have hends := scan_ends hlen hsize
  refine ⟨hends, fun htable hfits => ?_⟩
  obtain ⟨hlog, s, hval, hs⟩ := ((scan_runs hlen hsize htable).iff hends).mpr hfits
  exact ⟨hlog, s, hval, hs.toInBounds⟩

/-- The scan of an image with one file. -/
theorem scan_safe_small : ∃ s, (scan (imageOf shortA)).val = .ok s ∧ s.InBounds :=
  ((scan_safe (imageOf_length _) (by rw [sectorSizeOf_imageOf]; decide)).2 (hasTable_imageOf _)
    imageOf_logs.1).2

end Safety

end OsWorkbench.Frecov
