import OsWorkbench.Klib.Numbers

/-!
# What `vsprintf` prints

A format is made of pieces: ordinary characters and conversions. `vsprintf` does what the C
standard says for every piece but one kind: the sign of a negative number is not counted in
the width. A `%` at the end of the format makes it read on behind the terminator.
-/

namespace OsWorkbench.Klib

/-! ## Formats -/

inductive Conv
  | d
  | u
  | x
  deriving DecidableEq

namespace Conv

def type : Conv → UInt8
  | d => 100
  | u => 117
  | x => 120

def base : Conv → Nat
  | x => 16
  | _ => 10

def sign : Conv → Bool
  | d => true
  | _ => false

end Conv

/-- A piece of a format, with the argument it takes. -/
inductive Piece
  | plain (c : UInt8) (hc : c ≠ 37 ∧ c ≠ 0)
  | num (zeropad : Bool) (width : Nat) (hw : width ≤ 60) (conv : Conv) (w : UInt32)
  | str (p : UInt32) (s : CStr)
  | chr (w : UInt32)

def widthText (width : Nat) : List UInt8 := if width = 0 then [] else numeral 10 width

namespace Piece

def text : Piece → List UInt8
  | plain c _ => [c]
  | num zeropad width _ conv _ =>
    37 :: ((if zeropad then [48] else []) ++ (widthText width ++ [conv.type]))
  | str _ _ => [37, 115]
  | chr _ => [37, 99]

def words : Piece → List UInt32
  | plain _ _ => []
  | num _ _ _ _ w => [w]
  | str p _ => [p]
  | chr w => [w]

/-- What `vsprintf` writes. -/
def printed : Piece → List UInt8
  | plain c _ => [c]
  | num zeropad width _ conv w => printedNumber conv.base zeropad conv.sign width w.toNat
  | str _ s => s.bytes
  | chr w => [w.toUInt8]

/-- What the C standard prescribes. -/
def standard : Piece → List UInt8
  | plain c _ => [c]
  | num zeropad width _ conv w => standardNumber conv.base zeropad conv.sign width w.toNat
  | str _ s => s.bytes
  | chr w => [w.toUInt8]

/-- A negative number under `%d` with a width of more than its digits. -/
def Overlong : Piece → Prop
  | num _ width _ conv w => Klib.Overlong conv.base conv.sign width w.toNat
  | _ => False

instance : DecidablePred Overlong
  | num _ width _ conv w =>
    inferInstanceAs (Decidable (Klib.Overlong conv.base conv.sign width w.toNat))
  | plain _ _ => .isFalse id
  | str _ _ => .isFalse id
  | chr _ => .isFalse id

/-- The number that was printed is read back. -/
def ReadsBack : Piece → Prop
  | num zeropad width _ conv w =>
    readNumber conv.base (printedNumber conv.base zeropad conv.sign width w.toNat) =
      wordValue conv.sign w.toNat
  | _ => True

end Piece

/-- The bytes of a format, with a single `%` at its end where `trailing`. -/
def formatText (ps : List Piece) (trailing : Bool) : List UInt8 :=
  ps.flatMap Piece.text ++ if trailing then [37] else []

/-! ## The loops over the format -/

section Loops

variable {c : UInt8} {rest : List UInt8}

theorem modeLoop_spec (hc : c ≠ 48) (zeropad : Bool) :
    modeLoop ((if zeropad then [48] else []) ++ c :: rest) false = .ok (c :: rest, zeropad) := by
  cases zeropad with
  | false => exact if_neg hc
  | true => exact (if_pos rfl).trans (if_neg hc)

theorem le_readDigits (ds : List UInt8) (n : Nat) :
    n ≤ ds.foldl (fun n c => n * 10 + digitValue c) n := by
  induction ds generalizing n with
  | nil => exact le_rfl
  | cons d ds ih =>
    have hle : n ≤ n * 10 + digitValue d := by omega
    exact hle.trans (ih _)

theorem lengthLoop_spec (hc : ¬(48 ≤ c ∧ c ≤ 57)) {ds : List UInt8}
    (hds : ∀ d ∈ ds, 48 ≤ d ∧ d ≤ 57) {n : Nat}
    (hle : ds.foldl (fun n c => n * 10 + digitValue c) n < 2 ^ 31) :
    lengthLoop (ds ++ c :: rest) n =
      .ok (c :: rest, (ds.foldl (fun n c => n * 10 + digitValue c) n : Nat)) := by
  induction ds generalizing n with
  | nil => exact if_neg hc
  | cons d ds ih =>
    have hd := hds d List.mem_cons_self
    have hval : (d.toNat : Int) - 48 = (digitValue d : Nat) := by
      have h48 : 48 ≤ d.toNat := UInt8.le_iff_toNat_le.mp hd.1
      rw [digitValue, if_pos hd.2]
      omega
    have hint : int ((n : Int) * 10 + ((d.toNat : Int) - 48)) =
        .ok ((n * 10 + digitValue d : Nat) : Int) := by
      have hlt := (le_readDigits ds (n * 10 + digitValue d)).trans_lt hle
      rw [hval]
      refine int_eq_ok.mpr ⟨?_, by push_cast; rfl⟩
      unfold IsInt
      omega
    rw [List.cons_append, lengthLoop, if_pos hd, hint, ok_bind]
    exact ih (fun e he => hds e (List.mem_cons_of_mem _ he)) hle

theorem widthText_digits (width : Nat) : ∀ d ∈ widthText width, 48 ≤ d ∧ d ≤ 57 := by
  intro d hd
  rw [widthText] at hd
  split at hd
  · cases hd
  · next h0 =>
    rw [numeral, if_neg h0, List.mem_reverse] at hd
    obtain ⟨e, he, rfl⟩ := List.mem_map.mp hd
    exact digit_dec (Nat.digits_lt_base (by decide) he)

theorem widthText_value (width : Nat) :
    (widthText width).foldl (fun n c => n * 10 + digitValue c) 0 = width := by
  rw [widthText]
  split
  · next h0 => exact h0.symm
  · exact readDigits_numeral (by decide) (by decide) width

/-- The first byte behind the flag is not another `'0'`. -/
theorem widthText_head (width : Nat) (hc : c ≠ 48) :
    ∃ b bs, widthText width ++ c :: rest = b :: bs ∧ b ≠ 48 := by
  rw [widthText]
  split
  · exact ⟨c, rest, rfl, hc⟩
  · next h0 =>
    have hten : 1 < 10 := by decide
    obtain ⟨b, bs, hb, -, -, h48⟩ := numeral_head (n := width) hten (by decide)
    exact ⟨b, bs ++ c :: rest, by rw [hb]; rfl, h48 h0⟩

theorem Conv.type_spec (conv : Conv) (args : Args) (str : List UInt8) (w : UInt32)
    (zeropad : Bool) (width : Nat) :
    convert args str w conv.type zeropad width =
      .ok (str ++ printedNumber conv.base zeropad conv.sign width w.toNat) := by
  have hw : w.toNat < 2 ^ 32 := w.toNat_lt
  cases conv with
  | d => exact number_eq (.inl rfl) zeropad true width hw str
  | u => exact number_eq (.inl rfl) zeropad false width hw str
  | x => exact number_eq (.inr rfl) zeropad false width hw str

/-- A piece is printed in one iteration. -/
theorem formatLoop_piece {args : Args} {fuel k : Nat} {str : List UInt8} (p : Piece)
    (hwords : ∀ j w, p.words[j]? = some w → args.word (k + j) = w)
    (hmem : ∀ a s, p = .str a s → args.mem a = some s) :
    formatLoop args (fuel + 1) (p.text ++ rest) k str =
      formatLoop args fuel rest (k + p.words.length) (str ++ p.printed) := by
  rw [formatLoop]
  cases p with
  | plain c hc =>
    show (if c = 0 then _ else _) = _
    rw [if_neg hc.2]
    show (if c ≠ 37 then _ else _) = _
    rw [if_pos hc.1]
    rfl
  | num zeropad width hw conv w =>
    have hword : args.word k = w := hwords 0 w rfl
    have hc : conv.type ≠ 48 := by cases conv <;> decide
    have hc' : ¬(48 ≤ conv.type ∧ conv.type ≤ 57) := by cases conv <;> decide
    obtain ⟨b, bs, hb, hb48⟩ : ∃ b bs, widthText width ++ conv.type :: rest = b :: bs ∧ b ≠ 48 :=
      widthText_head width hc
    have hmode : modeLoop ((if zeropad then [48] else []) ++ (widthText width ++ conv.type :: rest))
        false = .ok (widthText width ++ conv.type :: rest, zeropad) := by
      rw [hb]
      exact modeLoop_spec hb48 zeropad
    have hlength : lengthLoop (widthText width ++ conv.type :: rest) 0 =
        .ok (conv.type :: rest, (width : Int)) := by
      have hval := widthText_value width
      have hspec : lengthLoop (widthText width ++ conv.type :: rest) (0 : Nat) = _ :=
        lengthLoop_spec hc' (widthText_digits width) (by omega)
      rw [hval] at hspec
      exact hspec
    have htext : (Piece.num zeropad width hw conv w).text ++ rest =
        37 :: ((if zeropad then [48] else []) ++ (widthText width ++ conv.type :: rest)) := by
      simp [Piece.text]
    rw [htext]
    show (modeLoop ((if zeropad then [48] else []) ++ (widthText width ++ conv.type :: rest)) false
      >>= _) = _
    rw [hmode, ok_bind]
    show (lengthLoop (widthText width ++ conv.type :: rest) 0 >>= _) = _
    rw [hlength, ok_bind]
    show (convert args str (args.word k) conv.type zeropad (width : Int) >>= _) = _
    rw [hword, conv.type_spec, ok_bind]
    rfl
  | str a s =>
    have hword : args.word k = a := hwords 0 a rfl
    have hs : args.mem a = some s := hmem a s rfl
    show (putString args.mem str (args.word k) false 0 >>= _) = _
    rw [hword, putString, hs, ok_bind]
    have hpad : ((0 : Int) - (s.length : Int)).toNat = 0 := by omega
    rw [hpad, List.replicate_zero, List.append_nil]
    rfl
  | chr w =>
    have hword : args.word k = w := hwords 0 w rfl
    show formatLoop args fuel rest (k + 1) (str ++ [(args.word k).toUInt8]) = _
    rw [hword]
    rfl

/-- All pieces. -/
theorem formatLoop_pieces {args : Args} {fuel k : Nat} {str : List UInt8} (ps : List Piece)
    (hwords : ∀ j w, (ps.flatMap Piece.words)[j]? = some w → args.word (k + j) = w)
    (hmem : ∀ a s, .str a s ∈ ps → args.mem a = some s) :
    formatLoop args (ps.length + fuel) (ps.flatMap Piece.text ++ rest) k str =
      formatLoop args fuel rest (k + (ps.flatMap Piece.words).length)
        (str ++ ps.flatMap Piece.printed) := by
  induction ps generalizing k str with
  | nil => simp
  | cons p ps ih =>
    have hp : ∀ j w, p.words[j]? = some w → args.word (k + j) = w := by
      intro j w hj
      refine hwords j w ?_
      rw [List.flatMap_cons, List.getElem?_append_left (List.getElem?_eq_some_iff.mp hj).1, hj]
    have hps : ∀ j w, (ps.flatMap Piece.words)[j]? = some w →
        args.word (k + p.words.length + j) = w := by
      intro j w hj
      rw [Nat.add_assoc]
      refine hwords _ w ?_
      rw [List.flatMap_cons, List.getElem?_append_right (Nat.le_add_right _ _),
        Nat.add_sub_cancel_left, hj]
    rw [List.length_cons, Nat.add_right_comm, List.flatMap_cons, List.append_assoc,
      formatLoop_piece p hp fun a s he => hmem a s (he ▸ List.mem_cons_self),
      ih hps fun a s he => hmem a s (List.mem_cons_of_mem _ he), List.flatMap_cons,
      List.flatMap_cons, List.length_append, List.append_assoc, Nat.add_assoc]

end Loops

/-! ## Whole formats -/

theorem Piece.text_noNul (p : Piece) : 0 ∉ p.text := by
  cases p with
  | plain c hc => simpa [Piece.text] using hc.2.symm
  | num zeropad width hw conv w =>
    have hwidth : 0 ∉ widthText width :=
      fun h0 => absurd (widthText_digits width 0 h0).1 (by decide)
    have htype : 0 ≠ conv.type := by cases conv <;> decide
    cases zeropad <;> simp [Piece.text, hwidth, htype]
  | str a s => simp [Piece.text]
  | chr w => simp [Piece.text]

theorem Piece.one_le_length_text (p : Piece) : 1 ≤ p.text.length := by
  cases p <;> simp [Piece.text]

theorem length_le_text (ps : List Piece) : ps.length ≤ (ps.flatMap Piece.text).length := by
  induction ps with
  | nil => exact le_rfl
  | cons p ps ih =>
    have hp := p.one_le_length_text
    rw [List.flatMap_cons, List.length_append, List.length_cons]
    omega

/-- The format as `vsprintf` gets it. -/
def format (ps : List Piece) (trailing : Bool) : CStr where
  bytes := formatText ps trailing
  noNul := by
    rw [formatText, List.mem_append, not_or]
    refine ⟨fun h => ?_, by cases trailing <;> decide⟩
    obtain ⟨p, -, hp⟩ := List.mem_flatMap.mp h
    exact p.text_noNul hp

section Whole

variable {args : Args} {ps : List Piece}

theorem vsprintf_format (hwords : ∀ j w, (ps.flatMap Piece.words)[j]? = some w → args.word j = w)
    (hmem : ∀ a s, .str a s ∈ ps → args.mem a = some s) :
    vsprintf (format ps false) args =
      .ok (ps.flatMap Piece.printed, (ps.flatMap Piece.printed).length) := by
  have hbytes : (format ps false).bytes = ps.flatMap Piece.text := List.append_nil _
  obtain ⟨n, hn⟩ : ∃ n, (format ps false).length + 2 = ps.length + (n + 1) := by
    have hle := length_le_text ps
    refine ⟨(format ps false).length + 1 - ps.length, ?_⟩
    rw [CStr.length, hbytes]
    omega
  rw [vsprintf, hn, hbytes, formatLoop_pieces ps (by simpa using hwords) hmem]
  rfl

/-- The `for` loop steps over the terminator. -/
theorem vsprintf_trailing (hwords : ∀ j w, (ps.flatMap Piece.words)[j]? = some w → args.word j = w)
    (hmem : ∀ a s, .str a s ∈ ps → args.mem a = some s) :
    vsprintf (format ps true) args = .error .badAccess := by
  have hbytes : (format ps true).bytes ++ [0] = ps.flatMap Piece.text ++ [37, 0] :=
    List.append_assoc _ _ _
  obtain ⟨n, hn⟩ : ∃ n, (format ps true).length + 2 = ps.length + (n + 2) := by
    have hle := length_le_text ps
    refine ⟨(format ps true).length - ps.length, ?_⟩
    rw [CStr.length, show (format ps true).bytes = ps.flatMap Piece.text ++ [37] from rfl,
      List.length_append]
    omega
  set str := ps.flatMap Piece.printed with hstr
  have hconvert : ∀ w : UInt32, convert args str w 0 false 0 =
      .ok (str ++ printedNumber 10 false false 0 w.toNat) :=
    fun w => number_eq (.inl rfl) false false 0 w.toNat_lt str
  rw [vsprintf, hn, hbytes, formatLoop_pieces ps (by simpa using hwords) hmem, List.nil_append,
    ← hstr]
  generalize 0 + (ps.flatMap Piece.words).length = k
  have hloop : formatLoop args (n + 2) [37, 0] k str = .error .badAccess := by
    show (convert args str (args.word k) 0 false 0 >>= fun str =>
      formatLoop args (n + 1) [] (k + 1) str) = _
    rw [hconvert]
    rfl
  rw [hloop]
  rfl

/-! ## The C standard -/

theorem Piece.printed_eq {p : Piece} (h : ¬p.Overlong) : p.printed = p.standard := by
  cases p with
  | num zeropad width hw conv w => exact printedNumber_eq h
  | plain c hc => rfl
  | str a s => rfl
  | chr w => rfl

theorem Piece.readsBack {p : Piece} (h : ¬p.Overlong) : p.ReadsBack := by
  cases p with
  | num zeropad width hw conv w =>
    have hbase : conv.base = 10 ∨ conv.base = 16 := by cases conv <;> decide
    show readNumber conv.base (printedNumber conv.base zeropad conv.sign width w.toNat) = _
    rw [printedNumber_eq h]
    exact readNumber_standard hbase zeropad conv.sign width w.toNat_lt
  | plain c hc => trivial
  | str a s => trivial
  | chr w => trivial

theorem Piece.printed_length (p : Piece) :
    p.printed.length = p.standard.length + if p.Overlong then 1 else 0 := by
  cases p with
  | num zeropad width hw conv w => exact printedNumber_length _ _ _ _ _
  | plain c hc => rfl
  | str a s => rfl
  | chr w => rfl

/-- Every overlong number makes the output one character longer. -/
theorem printed_length (ps : List Piece) :
    (ps.flatMap Piece.printed).length =
      (ps.flatMap Piece.standard).length + ps.countP fun p => decide p.Overlong := by
  induction ps with
  | nil => rfl
  | cons p ps ih =>
    have hp := p.printed_length
    rw [List.flatMap_cons, List.flatMap_cons, List.length_append, List.length_append, ih, hp,
      List.countP_cons]
    simp only [decide_eq_true_eq]
    omega

/-- `vsprintf` prints what the C standard says, returns the length, and the numbers can be read
back; a format that ends with a `%` is not read behind its terminator. -/
def Agrees (ps : List Piece) (trailing : Bool) (args : Args) : Prop :=
  (trailing = false → vsprintf (format ps false) args =
      .ok (ps.flatMap Piece.standard, (ps.flatMap Piece.standard).length) ∧
    ∀ p ∈ ps, p.ReadsBack) ∧
  (trailing = true → vsprintf (format ps true) args ≠ .error .badAccess)

/-- `vsprintf` agrees with the C standard exactly when no negative number is padded and no `%` is
at the end. -/
theorem vsprintf_agrees (trailing : Bool)
    (hwords : ∀ j w, (ps.flatMap Piece.words)[j]? = some w → args.word j = w)
    (hmem : ∀ a s, .str a s ∈ ps → args.mem a = some s) :
    Agrees ps trailing args ↔ trailing = false ∧ ∀ p ∈ ps, ¬p.Overlong := by
  have hrun := vsprintf_format hwords hmem
  constructor
  · rintro ⟨hplain, htrail⟩
    cases trailing with
    | true => exact absurd (vsprintf_trailing hwords hmem) (htrail rfl)
    | false =>
      refine ⟨rfl, fun p hp hover => ?_⟩
      have heq : ps.flatMap Piece.printed = ps.flatMap Piece.standard := by
        have hres := (hplain rfl).1
        rw [hrun, Except.ok.injEq, Prod.mk.injEq] at hres
        exact hres.1
      have hlen := printed_length ps
      have hcount : 0 < ps.countP fun p => decide p.Overlong :=
        List.countP_pos_iff.mpr ⟨p, hp, decide_eq_true hover⟩
      rw [heq] at hlen
      omega
  · rintro ⟨rfl, hgood⟩
    have heq : ps.flatMap Piece.printed = ps.flatMap Piece.standard := by
      rw [List.flatMap_def, List.flatMap_def]
      exact congrArg List.flatten (List.map_congr_left fun p hp => Piece.printed_eq (hgood p hp))
    rw [heq] at hrun
    exact ⟨fun _ => ⟨hrun, fun p hp => Piece.readsBack (hgood p hp)⟩, nofun⟩

end Whole

/-- `"%d%05u"` with `-5` and `42`. -/
theorem vsprintf_agrees_two :
    Agrees [.num false 0 (by decide) .d 4294967291, .num true 5 (by decide) .u 42] false
      ⟨fun k => if k = 0 then 4294967291 else 42, fun _ => none⟩ := by
  refine (vsprintf_agrees false ?_ ?_).mpr ⟨rfl, ?_⟩
  · rintro (_ | _ | j) w hj
    · exact Option.some.inj hj
    · exact Option.some.inj hj
    · exact nomatch hj
  · intro a s hmem
    simp at hmem
  · intro p hp
    rcases List.mem_pair.mp hp with rfl | rfl
    · exact fun hover => absurd hover.2 (Nat.not_lt_zero _)
    · exact fun hover => Bool.false_ne_true hover.1

/-- `"%3d"` with `-5` comes out as `"-  5"`. -/
theorem vsprintf_padded :
    ¬Agrees [.num false 3 (by decide) .d 4294967291] false
      ⟨fun _ => 4294967291, fun _ => none⟩ := by
  rintro ⟨hplain, -⟩
  have hres := (hplain rfl).1
  rw [vsprintf_format (by rintro (_ | j) w hj <;> simp_all [Piece.words]) (by simp)] at hres
  have hlen : (printedNumber 10 false true 3 4294967291).length =
      (standardNumber 10 false true 3 4294967291).length := by
    have := (Except.ok.inj hres)
    simpa [Piece.printed, Piece.standard, Conv.base, Conv.sign] using congrArg Prod.snd this
  have hdigits : wordDigits 10 true 4294967291 = [53] := by
    simp [wordDigits, isMinus, numeral, digit, digitTable]
  have hover : Overlong 10 true 3 4294967291 := ⟨rfl, by rw [hdigits]; decide⟩
  rw [printedNumber_length, if_pos hover] at hlen
  omega

end OsWorkbench.Klib
