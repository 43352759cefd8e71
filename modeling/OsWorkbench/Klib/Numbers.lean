import OsWorkbench.Klib.Stdio

/-!
# What `number` writes

The digits are written with the last one first and then turned round. The result is what the
C standard says but for one thing: the sign of a negative number is not counted in the width,
so that the number comes out one character too long wherever it is padded.
-/

namespace OsWorkbench.Klib

/-! ## Numerals -/

/-- The minimal digits of a number, the first one first. -/
def numeral (base n : Nat) : List UInt8 :=
  if n = 0 then [48] else ((Nat.digits base n).map digit).reverse

/-- The value of a digit. -/
def digitValue (c : UInt8) : Nat := if c ≤ 57 then c.toNat - 48 else c.toNat - 87

/-- The value of a row of digits. -/
def readDigits (base : Nat) (cs : List UInt8) : Nat :=
  cs.foldl (fun n c => n * base + digitValue c) 0

theorem digitValue_digit {d : Nat} (h : d < 16) : digitValue (digit d) = d := by
  interval_cases d <;> rfl

theorem digit_dec {d : Nat} (h : d < 10) : 48 ≤ digit d ∧ digit d ≤ 57 := by
  interval_cases d <;> decide

theorem readDigits_numeral {base : Nat} (hb : 1 < base) (hb' : base ≤ 16) (n : Nat) :
    readDigits base (numeral base n) = n := by
  have hfold : ∀ ds : List Nat, (∀ d ∈ ds, d < base) →
      readDigits base (ds.map digit).reverse = Nat.ofDigits base ds := by
    intro ds hds
    induction ds with
    | nil => rfl
    | cons d ds ih =>
      have hd : d < base := hds d List.mem_cons_self
      have ih := ih fun e he => hds e (List.mem_cons_of_mem _ he)
      rw [readDigits] at ih
      rw [List.map_cons, List.reverse_cons, readDigits, List.foldl_append, ih, List.foldl_cons,
        List.foldl_nil, digitValue_digit (hd.trans_le hb'), Nat.ofDigits_cons]
      ring
  rw [numeral]
  split
  · next h0 => rw [h0]; simp [readDigits, digitValue]
  · rw [hfold _ fun d hd => Nat.digits_lt_base hb hd, Nat.ofDigits_digits]

/-- The digits are written with the last one first. -/
theorem digitLoop_spec {base : Nat} (hb : 1 < base) {fuel num : Nat} {tmp : List UInt8}
    (hfuel : (Nat.digits base num).length < fuel)
    (hlen : tmp.length + (Nat.digits base num).length ≤ tmpLength) :
    digitLoop base fuel num tmp = .ok (tmp ++ (Nat.digits base num).map digit) := by
  induction fuel generalizing num tmp with
  | zero => exact absurd hfuel (Nat.not_lt_zero _)
  | succ fuel ih =>
    rw [digitLoop]
    split
    · next h0 => rw [h0, Nat.digits_zero, List.map_nil, List.append_nil]
    · next h0 =>
      have hdigits := Nat.digits_def' hb (Nat.pos_of_ne_zero h0)
      rw [hdigits, List.length_cons] at hfuel hlen
      rw [inBounds_bind (by omega), ih (by omega) (by simp; omega), hdigits, List.map_cons,
        List.append_assoc, List.singleton_append]

theorem digits_length_le {base n : Nat} (hb : base = 10 ∨ base = 16) (hn : n < 2 ^ 32) :
    (Nat.digits base n).length ≤ 10 := by
  rcases hb with rfl | rfl
  · exact (Nat.digits_length_le_iff (by decide) n).mpr (hn.trans (by decide))
  · exact (Nat.digits_length_le_iff (by decide) n).mpr (hn.trans (by decide))

/-! ## Numbers -/

/-- The pad character. -/
def padChar (zeropad : Bool) : UInt8 := if zeropad then 48 else 32

/-- The sign of a word under `%d`. -/
def isMinus (sign : Bool) (w : Nat) : Bool := sign && decide (2 ^ 31 ≤ w)

/-- The digits that are printed for a word. -/
def wordDigits (base : Nat) (sign : Bool) (w : Nat) : List UInt8 :=
  numeral base (if isMinus sign w then (2 ^ 32 - w) % 2 ^ 32 else w)

def signText (minus : Bool) : List UInt8 := if minus then [45] else []

/-- What `number` writes. -/
def printedNumber (base : Nat) (zeropad sign : Bool) (width w : Nat) : List UInt8 :=
  signText (isMinus sign w) ++
    List.replicate (width - (wordDigits base sign w).length) (padChar zeropad) ++
      wordDigits base sign w

/-- What the C standard prescribes: the sign counts, blanks stand before it and zeros
behind it. -/
def standardNumber (base : Nat) (zeropad sign : Bool) (width w : Nat) : List UInt8 :=
  let body := signText (isMinus sign w) ++ wordDigits base sign w
  if zeropad then
    signText (isMinus sign w) ++ List.replicate (width - body.length) 48 ++ wordDigits base sign w
  else List.replicate (width - body.length) 32 ++ body

theorem number_eq {base : Nat} (hb : base = 10 ∨ base = 16) (zeropad sign : Bool) (width : Nat)
    {w : Nat} (hw : w < 2 ^ 32) (str : List UInt8) :
    number str w base zeropad sign width =
      .ok (str ++ printedNumber base zeropad sign width w) := by
  have hb1 : 1 < base := by omega
  set n := if isMinus sign w then (2 ^ 32 - w) % 2 ^ 32 else w with hn
  have hlt : n < 2 ^ 32 := by
    rw [hn]
    split
    · exact Nat.mod_lt _ (by decide)
    · exact hw
  have htmp : writeDigits base n = .ok (numeral base n).reverse := by
    rw [writeDigits, numeral]
    split
    · rfl
    · have hlen := digits_length_le hb hlt
      rw [digitLoop_spec hb1 (by unfold tmpLength; omega) (by unfold tmpLength; simp; omega),
        List.nil_append, List.reverse_reverse]
  rw [number, check_bind hb]
  show (writeDigits base n >>= _) = _
  rw [htmp, ok_bind]
  have hpad : ((width : Int) - ((numeral base n).reverse.length : Int)).toNat =
      width - (wordDigits base sign w).length := by
    rw [List.length_reverse]
    show ((width : Int) - ((numeral base n).length : Int)).toNat = width - (numeral base n).length
    omega
  rw [hpad, List.reverse_reverse, printedNumber]
  show Except.ok (_ ++ _ ++ _) = _
  rw [← List.append_assoc, ← List.append_assoc]
  show Except.ok ((if isMinus sign w = true then str ++ [45] else str) ++ _ ++ _) = _
  congr 3
  cases isMinus sign w <;> simp [signText]

/-- The one case that goes wrong. -/
def Overlong (base : Nat) (sign : Bool) (width w : Nat) : Prop :=
  isMinus sign w = true ∧ (wordDigits base sign w).length < width

instance (base : Nat) (sign : Bool) (width w : Nat) : Decidable (Overlong base sign width w) :=
  inferInstanceAs (Decidable (_ ∧ _))

theorem printedNumber_eq {base : Nat} {zeropad sign : Bool} {width w : Nat}
    (h : ¬Overlong base sign width w) :
    printedNumber base zeropad sign width w = standardNumber base zeropad sign width w := by
  unfold printedNumber standardNumber
  cases hm : isMinus sign w with
  | false => cases zeropad <;> simp [signText, padChar]
  | true =>
    have hle : width ≤ (wordDigits base sign w).length := by
      by_contra hlt
      exact h ⟨hm, not_le.mp hlt⟩
    have h0 : width - (wordDigits base sign w).length = 0 := by omega
    have h1 : width - ((wordDigits base sign w).length + 1) = 0 := by omega
    cases zeropad <;> simp [signText, padChar, h0, h1]

theorem printedNumber_length (base : Nat) (zeropad sign : Bool) (width w : Nat) :
    (printedNumber base zeropad sign width w).length =
      (standardNumber base zeropad sign width w).length +
        if Overlong base sign width w then 1 else 0 := by
  by_cases h : Overlong base sign width w
  · rw [if_pos h]
    obtain ⟨hm, hlt⟩ := h
    unfold printedNumber standardNumber
    cases zeropad <;> simp [hm, signText] <;> omega
  · rw [if_neg h, printedNumber_eq h, Nat.add_zero]

/-! ## Reading back -/

/-- The number at the start of a text, as `strtol` reads it. -/
def readNumber (base : Nat) (cs : List UInt8) : Int :=
  match cs.dropWhile (· == 32) with
  | 45 :: ds => -(readDigits base ds : Int)
  | ds => readDigits base ds

/-- The value of a word under a conversion. -/
def wordValue (sign : Bool) (w : Nat) : Int := if isMinus sign w then (w : Int) - 2 ^ 32 else w

theorem numeral_head {base n : Nat} (hb : 1 < base) (hb' : base ≤ 16) :
    ∃ c cs, numeral base n = c :: cs ∧ c ≠ 32 ∧ c ≠ 45 ∧ (n ≠ 0 → c ≠ 48) := by
  have hdigit : ∀ d < 16, digit d ≠ 32 ∧ digit d ≠ 45 ∧ (d ≠ 0 → digit d ≠ 48) := by decide
  rw [numeral]
  split
  · next h0 => exact ⟨48, [], rfl, by decide, by decide, fun h => absurd h0 h⟩
  · next h0 =>
    have hne : Nat.digits base n ≠ [] := Nat.digits_ne_nil_iff_ne_zero.mpr h0
    obtain ⟨ds, d, hds⟩ := (List.eq_nil_or_concat' (Nat.digits base n)).resolve_left hne
    have hlast : d ≠ 0 := by
      have := Nat.getLast_digit_ne_zero base h0
      simpa only [hds, List.getLast_concat] using this
    have hmem : d ∈ Nat.digits base n := by
      rw [hds]
      simp
    have hlt : d < 16 := (Nat.digits_lt_base hb hmem).trans_le hb'
    refine ⟨digit d, (ds.map digit).reverse, by simp [hds], (hdigit d hlt).1, (hdigit d hlt).2.1,
      fun _ => (hdigit d hlt).2.2 hlast⟩

theorem readDigits_zeros (base k : Nat) (cs : List UInt8) :
    readDigits base (List.replicate k 48 ++ cs) = readDigits base cs := by
  rw [readDigits, List.foldl_append]
  congr 1
  induction k with
  | zero => rfl
  | succ k ih => simpa [List.replicate_succ, digitValue] using ih

theorem dropWhile_blanks (k : Nat) (cs : List UInt8) :
    (List.replicate k 32 ++ cs).dropWhile (· == 32) = cs.dropWhile (· == 32) := by
  induction k with
  | zero => rfl
  | succ k ih => exact ih

/-- What the C standard prescribes can be read back. -/
theorem readNumber_standard {base : Nat} (hb : base = 10 ∨ base = 16) (zeropad sign : Bool)
    (width : Nat) {w : Nat} (hw : w < 2 ^ 32) :
    readNumber base (standardNumber base zeropad sign width w) = wordValue sign w := by
  have hb1 : 1 < base := by omega
  have hb2 : base ≤ 16 := by omega
  obtain ⟨c, cs, hc, h32, h45, -⟩ := numeral_head
    (n := if isMinus sign w then (2 ^ 32 - w) % 2 ^ 32 else w) hb1 hb2
  have hval : readDigits base (wordDigits base sign w) =
      if isMinus sign w then (2 ^ 32 - w) % 2 ^ 32 else w := readDigits_numeral hb1 hb2 _
  have hsigned : ∀ ds, readNumber base (signText (isMinus sign w) ++ ds) =
      if isMinus sign w then -(readDigits base ds : Int) else readNumber base ds := by
    intro ds
    cases isMinus sign w with
    | false => rfl
    | true => rfl
  have hplain : ∀ k, readNumber base (List.replicate k 48 ++ wordDigits base sign w) =
      readDigits base (wordDigits base sign w) := by
    intro k
    have hhead : ∃ a as, List.replicate k 48 ++ wordDigits base sign w = a :: as ∧ a ≠ 32 ∧
        a ≠ 45 := by
      cases k with
      | zero => exact ⟨c, cs, hc, h32, h45⟩
      | succ k => exact ⟨48, _, rfl, by decide, by decide⟩
    obtain ⟨a, as, ha, ha32, ha45⟩ := hhead
    have hdrop : (a :: as).dropWhile (· == 32) = a :: as :=
      List.dropWhile_cons_of_neg (by simpa using ha32)
    rw [← readDigits_zeros base k, ha, readNumber, hdrop]
    split
    · next heq =>
      cases heq
      exact absurd rfl ha45
    · rfl
  have hfinal : (if isMinus sign w then -(readDigits base (wordDigits base sign w) : Int)
      else readDigits base (wordDigits base sign w)) = wordValue sign w := by
    rw [hval, wordValue]
    split
    · next hm =>
      have hge : 2 ^ 31 ≤ w := by
        rw [isMinus, Bool.and_eq_true] at hm
        exact of_decide_eq_true hm.2
      rw [Nat.mod_eq_of_lt (by omega)]
      omega
    · rfl
  rw [← hfinal, standardNumber]
  cases zeropad with
  | true =>
    rw [if_pos rfl, List.append_assoc, hsigned, hplain, readDigits_zeros]
  | false =>
    rw [if_neg (by simp), readNumber, dropWhile_blanks]
    show readNumber base (signText (isMinus sign w) ++ wordDigits base sign w) = _
    have hzero := hplain 0
    rw [List.replicate_zero, List.nil_append] at hzero
    rw [hsigned, hzero]

end OsWorkbench.Klib
