import OsWorkbench.Lib.Count
import OsWorkbench.Frecov.Scan
import OsWorkbench.Frecov.Reads

/-!
# The scan ends

On an image with a sector size the scan never runs forever, whatever else the image is like: the
search for the table comes to an end of the image, each round of the second loop but the last one
reads a sector that was not read before, and the third loop counts.
-/

namespace OsWorkbench.Frecov

open Lib Traced

/-- The sector size of the image. -/
def sectorSizeOf (img : List UInt8) : Int := (entryAt img 0).num 0x0b 2

theorem sectorSizeOf_nonneg (img : List UInt8) : 0 ≤ sectorSizeOf img := Int.natCast_nonneg _

theorem sectorSizeOf_lt (img : List UInt8) : sectorSizeOf img < 2 ^ 16 := by
  have hlt := (entryAt img 0).num_lt 0x0b 2
  unfold sectorSizeOf
  omega

/-! ## One entry -/

section Entries

variable {img : List UInt8}

theorem bind_ne_diverges {α β : Type} {x : Except Fault α} {f : α → Except Fault β}
    (hx : x ≠ .error .diverges) (hf : ∀ a, f a ≠ .error .diverges) :
    (x >>= f) ≠ .error .diverges := by
  intro h
  rcases bind_eq_error.mp h with h | ⟨a, -, h⟩
  · exact hx h
  · exact hf a h

theorem index_ne_diverges (i : Int) (n : Nat) : index i n ≠ .error .diverges := by
  unfold index
  split <;> nofun

theorem inBounds_ne_diverges (p : Prop) [Decidable p] : inBounds p ≠ .error .diverges := by
  unfold inBounds
  split <;> nofun

theorem byte_ne_diverges (p : Int) : byte img p ≠ .error .diverges :=
  bind_ne_diverges (index_ne_diverges _ _) fun _ => nofun

theorem readNumLoop_ne_diverges (p : Int) (len : Nat) (r : Int) :
    readNumLoop img p len r ≠ .error .diverges := by
  induction len generalizing r with
  | zero => exact nofun
  | succ len ih => exact bind_ne_diverges (byte_ne_diverges _) fun _ => ih _

theorem readUnicode_ne_diverges (p : Int) (len k : Nat) (dest : Nat → UInt8) :
    readUnicode img p len k dest ≠ .error .diverges := by
  induction len generalizing p k dest with
  | zero => exact nofun
  | succ len ih => exact bind_ne_diverges (byte_ne_diverges _) fun _ => ih _ _ _

theorem longEntry_ne_diverges (p : Int) : longEntry img p ≠ .error .diverges := by
  refine bind_ne_diverges (byte_ne_diverges _) fun _ => ?_
  split
  · refine bind_ne_diverges (byte_ne_diverges _) fun _ => ?_
    split
    · exact bind_ne_diverges (readNumLoop_ne_diverges _ _ _) fun _ => nofun
    · exact nofun
  · exact nofun

theorem pushPiece_ne_diverges (p : Int) (s : Scan) : pushPiece img p s ≠ .error .diverges := by
  refine bind_ne_diverges (inBounds_ne_diverges _) fun _ => ?_
  refine bind_ne_diverges (readUnicode_ne_diverges _ _ _ _) fun _ => ?_
  refine bind_ne_diverges (readUnicode_ne_diverges _ _ _ _) fun _ => ?_
  exact bind_ne_diverges (readUnicode_ne_diverges _ _ _ _) fun _ => nofun

theorem popPieces_ne_diverges (buf : Nat → Nat → UInt8) (top : Nat) (name : CStr) :
    popPieces buf top name ≠ .error .diverges := by
  induction top generalizing name with
  | zero => exact nofun
  | succ top ih =>
    refine bind_ne_diverges (inBounds_ne_diverges _) fun _ => ?_
    refine bind_ne_diverges (bind_ne_diverges (inBounds_ne_diverges _) fun _ => nofun) fun _ => ?_
    exact bind_ne_diverges (bind_ne_diverges (inBounds_ne_diverges _) fun _ => nofun) fun _ => ih _

theorem sectors_ne_diverges (n m : Int) : sectors n m ≠ .error .diverges := by
  unfold sectors
  split <;> nofun

theorem closeName_ne_diverges (sectorSize p f : Int) (s : Scan) :
    closeName img sectorSize p f s ≠ .error .diverges := by
  refine bind_ne_diverges (index_ne_diverges _ _) fun _ => ?_
  refine bind_ne_diverges (popPieces_ne_diverges _ _ _) fun _ => ?_
  refine bind_ne_diverges (readNumLoop_ne_diverges _ _ _) fun _ => ?_
  refine bind_ne_diverges (readNumLoop_ne_diverges _ _ _) fun _ => ?_
  refine bind_ne_diverges (readNumLoop_ne_diverges _ _ _) fun _ => ?_
  refine bind_ne_diverges (sectors_ne_diverges _ _) fun _ => ?_
  dsimp only
  split <;> nofun

theorem readNamePositionDo_ne_diverges (sectorSize p f : Int) (s : Scan) :
    readNamePositionDo img sectorSize p f s ≠ .error .diverges := by
  refine bind_ne_diverges (longEntry_ne_diverges _) fun _ => ?_
  split
  · exact pushPiece_ne_diverges _ _
  · split
    · exact closeName_ne_diverges _ _ _ _
    · exact nofun

theorem readNamePosition_ne_diverges (sectorSize p : Int) (s : Scan) :
    readNamePosition img sectorSize p s ≠ .error .diverges := by
  unfold readNamePosition
  split <;> exact readNamePositionDo_ne_diverges _ _ _ _

end Entries

/-! ## Sectors -/

/-- How many sectors were not read yet. -/
def unread (s : Scan) : Nat := (List.range visitLength).countP fun k => s.sectorVisit k = false

theorem unread_setVisit {s : Scan} {k : Nat} (hk : k < visitLength) (hs : s.sectorVisit k = false) :
    unread (setVisit s k) + 1 = unread s := by
  have hcount := countP_update (v := false) List.nodup_range (List.mem_range.mpr hk) true
    (f := s.sectorVisit)
  rw [if_pos hs, if_neg (by decide)] at hcount
  have hset : (setVisit s k).sectorVisit = Function.update s.sectorVisit k true := rfl
  rw [unread, unread, hset]
  omega

section Loops

variable {img : List UInt8} {s : Scan}

/-- The rule of the scan. -/
abbrev Ends {α : Type} (m : Traced Fault Visit α) (Q : α → Prop) : Prop :=
  m.Avoids .diverges Q

/-- What a call of the two search functions leaves unread. -/
def Fewer (s : Scan) (r : Int × Scan) : Prop :=
  unread r.2 ≤ unread s ∧ (r.1 ≠ 0 → unread r.2 < unread s)

theorem Fewer.stay (s : Scan) : Fewer s (0, s) := ⟨le_rfl, fun h => absurd rfl h⟩

theorem readSector_ends (hsize : 0 < sectorSizeOf img) (n : Nat) (p : Int) (s : Scan) :
    Ends (readSector img (sectorSizeOf img) n p s) fun t => t.sectorVisit = s.sectorVisit := by
  induction n generalizing p s with
  | zero => exact .pure rfl
  | succ n ih =>
    refine .bind .emit fun _ _ => ?_
    refine .bind (.lift (readNamePosition_ne_diverges _ _ _) fun t ht =>
      step_sectorVisit ((readNamePosition_eq_ok hsize).mp ht).2) fun t ht => ?_
    exact .bind .emit fun _ _ => (ih _ t).mono fun u hu => hu.trans ht

theorem searchBmpNamePosition_ends (hsize : 0 < sectorSizeOf img) (offset idx : Int) (s : Scan) :
    Ends (searchBmpNamePosition img (sectorSizeOf img) offset idx s) (Fewer s) := by
  rw [searchBmpNamePosition]
  split
  · exact .pure (.stay s)
  · refine .bind .emit fun _ _ => .bind (.lift (index_ne_diverges _ _) fun k hk => hk)
      fun k hk => ?_
    obtain ⟨-, hlt⟩ := index_eq_ok.mp hk
    split
    · exact .pure (.stay s)
    · next hnew =>
      have hunread := unread_setVisit hlt (Bool.eq_false_iff.mpr hnew)
      refine .bind (readSector_ends hsize _ offset (setVisit s k)) fun t ht => ?_
      have ht' : unread t = unread (setVisit s k) := by rw [unread, ht, unread]
      exact .pure ⟨by dsimp only; omega, fun _ => by dsimp only; omega⟩

theorem deepSearchBmpNamePosition_ends (hsize : 0 < sectorSizeOf img) (offset : Int) (s : Scan) :
    Ends (deepSearchBmpNamePosition img (sectorSizeOf img) offset s) (Fewer s) := by
  rw [deepSearchBmpNamePosition]
  refine .bind .emit fun _ _ => .bind (.lift (index_ne_diverges _ _) fun k hk => hk) fun k _ => ?_
  split
  · exact .pure (.stay s)
  · dsimp only
    split
    · exact searchBmpNamePosition_ends hsize _ _ (setVisited s k)
    · exact .pure ⟨le_rfl, fun h => absurd rfl h⟩

/-- Every round but the last one reads a new sector. -/
theorem deepLoop_ends (hsize : 0 < sectorSizeOf img) (offset : Int) {fuel : Nat}
    (hfuel : unread s < fuel) :
    Ends (deepLoop img (sectorSizeOf img) offset fuel s) fun _ => True := by
  induction fuel generalizing s with
  | zero => exact absurd hfuel (Nat.not_lt_zero _)
  | succ fuel ih =>
    refine .bind (deepSearchBmpNamePosition_ends hsize offset s) fun r hr => ?_
    split
    · next hne =>
      have hless := hr.2 hne
      exact ih (by omega)
    · exact .pure trivial

theorem wrap_eq {v : Int} (h : IsInt v) : wrap v = v := by
  unfold IsInt at h
  exact Int.bmod_eq_of_le (by omega) (by omega)

theorem wrap_isInt (v : Int) : IsInt (wrap v) := by
  have hle := Int.le_bmod (x := v) (m := 2 ^ 32) (by decide)
  have hlt := Int.bmod_lt (x := v) (m := 2 ^ 32) (by decide)
  unfold IsInt wrap
  omega

/-- The last loop counts up to the number of sectors. -/
theorem sectorLoop_ends {f : Fat32} (hf : f.sectorSize = sectorSizeOf img)
    (hsize : 0 < sectorSizeOf img) (hamount : IsInt f.sectorAmount) {dataStart i : Int} {fuel : Nat}
    (hfuel : (f.sectorAmount - wrap (dataStart + wrap (i - 2))).toNat < fuel) :
    Ends (sectorLoop img f dataStart fuel i s) fun _ => True := by
  induction fuel generalizing i s with
  | zero => exact absurd hfuel (Nat.not_lt_zero _)
  | succ fuel ih =>
    rw [sectorLoop]
    split
    · next hlt =>
      rw [hf]
      refine .bind (searchBmpNamePosition_ends hsize _ _ s) fun r _ => ih ?_
      have hint := wrap_isInt (dataStart + wrap (i - 2))
      have hnext : wrap (dataStart + wrap (wrap (i + 1) - 2)) =
          wrap (dataStart + wrap (i - 2)) + 1 := by
        have hsucc : wrap (wrap (i + 1) - 2) = wrap (wrap (i - 2) + 1) := by
          rw [wrap_wrap_add, sub_eq_add_neg, wrap_wrap_add]
          congr 1
          ring
        rw [hsucc, add_comm dataStart, wrap_wrap_add, add_assoc, add_comm 1 dataStart, ← add_assoc,
          ← wrap_wrap_add, add_comm (wrap (i - 2))]
        refine wrap_eq ?_
        unfold IsInt at hint hamount ⊢
        omega
      rw [hnext]
      omega
    · exact .pure trivial

end Loops

/-! ## The table -/

section Table

variable {img : List UInt8} {sectorSize : Int}

theorem matchesAt_ne_diverges (cs : List UInt8) (p : Int) :
    matchesAt img cs p ≠ .error .diverges := by
  induction cs generalizing p with
  | nil => exact nofun
  | cons c cs ih =>
    refine bind_ne_diverges (byte_ne_diverges _) fun b => ?_
    split
    · exact ih _
    · exact nofun

/-- A position that is not the one of a table is in the image. -/
theorem lt_of_matchesAt_eq_false {cs : List UInt8} {n : Nat}
    (h : matchesAt img cs n = .ok false) : n < img.length := by
  cases cs with
  | nil => cases h
  | cons c cs =>
    obtain ⟨b, hb, -⟩ := bind_eq_ok.mp h
    have hlt := (byte_eq_ok.mp hb).1.2
    omega

/-- The next position. -/
theorem wrap_next (hlen : img.length ≤ imageSize) (h0 : 0 ≤ sectorSize)
    (hsmall : sectorSize < 2 ^ 16) {n : Nat} (hn : n < img.length) :
    wrap (n + sectorSize) = (n + sectorSize.toNat : Nat) := by
  unfold imageSize at hlen
  rw [wrap_eq (by unfold IsInt; omega)]
  omega

/-- The search for the table comes to the end of the image. -/
theorem findFat_ne_diverges (hlen : img.length ≤ imageSize) (h0 : 0 < sectorSize)
    (hsmall : sectorSize < 2 ^ 16) {fuel n : Nat} (hpos : 0 < fuel)
    (hfuel : img.length < fuel + n) : findFat img sectorSize fuel n ≠ .error .diverges := by
  induction fuel generalizing n with
  | zero => exact absurd hpos (lt_irrefl 0)
  | succ fuel ih =>
    rw [findFat]
    intro h
    rcases bind_eq_error.mp h with h | ⟨b, hb, h⟩
    · exact matchesAt_ne_diverges _ _ h
    · cases b with
      | true => cases h
      | false =>
        have hlt := lt_of_matchesAt_eq_false hb
        rw [if_neg (by decide), wrap_next hlen h0.le hsmall hlt] at h
        exact ih (by omega) (by omega) h

end Table

end OsWorkbench.Frecov
