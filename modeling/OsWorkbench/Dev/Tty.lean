import OsWorkbench.Lib.Ring
import OsWorkbench.Dev.Model

/-!
# The line discipline of a terminal

The cook queue holds the completed lines, each with its newline and a NUL behind it,
and then the line that is being typed. A backspace must not go back beyond the start of
this line: it looks for a NUL in front of it, which is the end of the line before or,
if that one is gone, a byte that was never overwritten since.
-/

namespace OsWorkbench.Dev

/-! ## The queue -/

/-- The queue holds the bytes `l`. -/
structure Holds (q : TtyQueue) (l : List UInt8) : Prop where
  front : q.front < ttyCookBufSz
  few : l.length < ttyCookBufSz
  rear : q.rear = (q.front + l.length) % ttyCookBufSz
  cells : ring ttyCookBufSz q.buf q.front l.length = l

/-- The byte in front of the queue is NUL. -/
def Guarded (q : TtyQueue) : Prop := q.buf ((q.front + (ttyCookBufSz - 1)) % ttyCookBufSz) = 0

theorem Guarded.init {buf : Nat → UInt8} (h : buf (ttyCookBufSz - 1) = 0) :
    Guarded (.init buf) := by
  rw [Guarded, TtyQueue.init, Nat.zero_add, Nat.mod_eq_of_lt (by decide)]
  exact h

namespace Holds

variable {q q' : TtyQueue} {l : List UInt8} {ch : UInt8}

theorem init (buf : Nat → UInt8) : Holds (.init buf) [] where
  front := (by decide : 0 < ttyCookBufSz)
  few := (by decide : 0 < ttyCookBufSz)
  rear := (Nat.zero_mod _).symm
  cells := Ring.ring_zero

theorem rear_lt (h : Holds q l) : q.rear < ttyCookBufSz := h.rear ▸ Nat.mod_lt _ (by decide)

theorem next_rear (h : Holds q l) :
    (if q.rear + 1 = ttyCookBufSz then 0 else q.rear + 1) =
      (q.front + (l.length + 1)) % ttyCookBufSz := by
  rw [Ring.succ_mod h.rear_lt, h.rear, Nat.mod_add_mod, Nat.add_assoc]

/-- A byte is added while there is room for one more. -/
theorem enqueue (h : Holds q l) (ch : UInt8) (hlt : l.length + 1 < ttyCookBufSz) :
    ∃ q', ttyEnqueue q ch = .ok q' ∧ Holds q' (l ++ [ch]) ∧ (Guarded q → Guarded q') := by
  have hne : (q.front + (l.length + 1)) % ttyCookBufSz ≠ q.front := by
    have := Ring.add_mod_ne q.front (Nat.succ_pos l.length) hlt
    rw [Nat.add_zero, Nat.mod_eq_of_lt h.front] at this
    exact this.symm
  unfold ttyEnqueue
  rw [inBounds_bind h.rear_lt]
  dsimp only
  rw [h.next_rear, if_neg hne]
  refine ⟨_, rfl, ⟨h.front, ?_, ?_, ?_⟩, fun hg => ?_⟩
  · rw [List.length_append, List.length_singleton]
    exact hlt
  · rw [List.length_append, List.length_singleton]
  · rw [List.length_append, List.length_singleton]
    dsimp only
    rw [Ring.ring_update hlt le_rfl, h.rear, Ring.ring_push h.few, h.cells]
  · unfold Guarded
    dsimp only
    rw [Function.update_apply]
    split_ifs with hlast
    · rfl
    · have hother : (q.front + l.length) % ttyCookBufSz ≠
          (q.front + (ttyCookBufSz - 1)) % ttyCookBufSz :=
        Ring.add_mod_ne q.front (by omega) (by decide)
      rw [h.rear, Function.update_of_ne hother.symm]
      exact hg

/-- One more byte than fits. -/
theorem enqueue_full (h : Holds q l) (heq : l.length + 1 = ttyCookBufSz) :
    ttyEnqueue q ch = .error .exit := by
  unfold ttyEnqueue
  rw [inBounds_bind h.rear_lt]
  dsimp only
  rw [h.next_rear, heq, Nat.add_mod_right, Nat.mod_eq_of_lt h.front, if_pos rfl]

/-- The index that a backspace looks at. -/
theorem back_eq (h : Holds q l) : (if q.rear = 0 then ttyCookBufSz else q.rear) - 1 =
    (q.front + l.length + (ttyCookBufSz - 1)) % ttyCookBufSz := by
  have hf := h.front
  have hl := h.few
  rw [h.rear]
  unfold ttyCookBufSz at *
  split_ifs <;> omega

theorem back_snoc (h : Holds q (l ++ [ch])) : (if q.rear = 0 then ttyCookBufSz else q.rear) - 1 =
    (q.front + l.length) % ttyCookBufSz := by
  rw [h.back_eq, List.length_append, List.length_singleton]
  have hsz : 0 < ttyCookBufSz := by decide
  rw [show q.front + (l.length + 1) + (ttyCookBufSz - 1) =
    q.front + l.length + ttyCookBufSz by omega,
    Nat.add_mod_right]

theorem last_cell (h : Holds q (l ++ [ch])) : q.buf ((q.front + l.length) % ttyCookBufSz) = ch := by
  have hcells := h.cells
  rw [List.length_append, List.length_singleton, Ring.ring_snoc] at hcells
  exact List.singleton_inj.mp (List.append_inj' hcells rfl).2

theorem front_ne (h : Holds q l) : q.front ≠ ttyCookBufSz := h.front.ne

/-- A backspace takes the last byte away. -/
theorem popBack (h : Holds q (l ++ [ch])) (hch : ch ≠ 0) :
    ∃ q', ttyPopBack q = (0, q') ∧ Holds q' l ∧ (Guarded q → Guarded q') := by
  have hcell := h.last_cell
  have hlen := h.few
  rw [List.length_append, List.length_singleton] at hlen
  unfold ttyPopBack
  rw [if_pos h.front_ne]
  dsimp only
  rw [h.back_snoc, hcell, if_pos hch]
  refine ⟨_, rfl, ⟨h.front, by omega, rfl, ?_⟩, fun hg => ?_⟩
  · dsimp only
    rw [Ring.ring_update (by omega) le_rfl]
    have hcells := h.cells
    rw [List.length_append, List.length_singleton, Ring.ring_snoc] at hcells
    exact (List.append_inj' hcells rfl).1
  · unfold Guarded
    dsimp only
    rw [Function.update_apply]
    split_ifs
    · rfl
    · exact hg

/-- Nothing is taken away from an empty queue, or across a NUL. -/
theorem popBack_stop (h : Holds q l) (hl : (l = [] ∧ Guarded q) ∨ ∃ l', l = l' ++ [0]) :
    ttyPopBack q = (1, q) := by
  have hcell : q.buf ((if q.rear = 0 then ttyCookBufSz else q.rear) - 1) = 0 := by
    rcases hl with ⟨rfl, hg⟩ | ⟨l', rfl⟩
    · rw [h.back_eq]
      exact hg
    · rw [h.back_snoc]
      exact h.last_cell
  unfold ttyPopBack
  rw [if_pos h.front_ne]
  dsimp only
  rw [hcell, if_neg (by simp)]

/-- The queue behind its first line. -/
theorem drop {line rest : List UInt8} (h : Holds q (line ++ 0 :: rest)) :
    Holds { q with front := (q.front + (line.length + 1)) % ttyCookBufSz } rest ∧
      Guarded { q with front := (q.front + (line.length + 1)) % ttyCookBufSz } := by
  have hlen := h.few
  have hcells := h.cells
  have hrear := h.rear
  have hsz : 0 < ttyCookBufSz := by decide
  rw [List.length_append, List.length_cons, show line.length + (rest.length + 1) =
    line.length + 1 + rest.length by omega] at hlen hcells hrear
  rw [Ring.ring_add, ← List.singleton_append (l := rest), ← List.append_assoc] at hcells
  obtain ⟨hfirst, hrest⟩ := List.append_inj hcells (by simp)
  refine ⟨⟨Nat.mod_lt _ hsz, by omega, ?_, hrest⟩, ?_⟩
  · dsimp only
    rw [hrear, Nat.mod_add_mod, ← Nat.add_assoc q.front]
  · rw [Ring.ring_snoc] at hfirst
    have hnul := List.singleton_inj.mp (List.append_inj' hfirst rfl).2
    unfold Guarded
    dsimp only
    rw [Nat.mod_add_mod, show q.front + (line.length + 1) + (ttyCookBufSz - 1) =
      q.front + line.length + ttyCookBufSz by omega, Nat.add_mod_right]
    exact hnul

end Holds

/-- The loop of `tty_read` over the bytes up to the first NUL. -/
theorem readLoop_eq {buf : Nat → UInt8} {fuel front : Nat} {line rest : List UInt8}
    (count nread : Nat) (out : List UInt8)
    (hfront : front < ttyCookBufSz)
    (hcells : ring ttyCookBufSz buf front (line ++ 0 :: rest).length = line ++ 0 :: rest)
    (hline : ∀ c ∈ line, c ≠ 0) (hfuel : line.length < fuel) :
    readLoop buf count fuel front nread out = .ok (nread + line.length,
      out ++ line.take (count - nread), (front + (line.length + 1)) % ttyCookBufSz) := by
  induction line generalizing fuel front nread out with
  | nil =>
    obtain ⟨fuel, rfl⟩ := Nat.exists_eq_succ_of_ne_zero hfuel.ne'
    rw [List.nil_append, List.length_cons, Ring.ring_succ hfront, List.cons.injEq] at hcells
    rw [readLoop]
    rw [hcells.1, if_pos rfl, if_neg (by simp), Ring.succ_mod hfront]
    simp
  | cons c line ih =>
    obtain ⟨fuel, rfl⟩ := Nat.exists_eq_succ_of_ne_zero (Nat.ne_zero_of_lt hfuel)
    rw [List.cons_append, List.length_cons, Ring.ring_succ hfront, List.cons.injEq] at hcells
    have hc : c ≠ 0 := hline c (by simp)
    rw [readLoop]
    rw [hcells.1, if_neg hc, Ring.succ_mod hfront,
      ih _ _ (Nat.mod_lt _ (by decide)) hcells.2 (fun d hd => hline d (by simp [hd]))
        (Nat.lt_of_succ_lt_succ hfuel)]
    have hout :
      (if nread < count ∧ c ≠ 0 then out ++ [c] else out) ++ line.take (count - (nread + 1)) =
        out ++ (c :: line).take (count - nread) := by
      by_cases hlt : nread < count
      · rw [if_pos ⟨hlt, hc⟩, List.append_assoc, List.singleton_append,
          show count - nread = count - (nread + 1) + 1 by omega, List.take_succ_cons]
      · rw [if_neg (fun h => hlt h.1), show count - nread = 0 by omega,
          show count - (nread + 1) = 0 by omega, List.take_zero, List.take_zero]
    rw [hout, Nat.mod_add_mod, List.length_cons, Nat.add_assoc nread, Nat.add_assoc front,
      Nat.add_comm 1, Nat.add_comm 1]

/-- A read takes the bytes up to the first NUL, and stores as many of them as it may. -/
theorem Holds.ttyRead {t : Tty} {line rest : List UInt8} (h : Holds t.queue (line ++ 0 :: rest))
    (hline : ∀ c ∈ line, c ≠ 0) (count : Nat) :
    ttyRead t count = .ok (line.length, line.take count,
      { queue := { t.queue with front := (t.queue.front + (line.length + 1)) % ttyCookBufSz }
        cooked := t.cooked - 1 }) := by
  have hfuel : line.length < ttyCookBufSz := by
    have := h.few
    rw [List.length_append] at this
    omega
  have hloop := readLoop_eq count 0 [] h.front h.cells hline hfuel
  rw [Nat.zero_add, List.nil_append, Nat.sub_zero] at hloop
  rw [Dev.ttyRead, hloop]
  rfl

/-! ## Lines -/

/-- What was typed and read so far: the completed lines, how many of them were read, and
the line that is being typed. -/
structure Typed where
  completed : List (List UInt8)
  taken : Nat
  current : List UInt8

/-- The lines as they are in the queue. -/
def encode (lines : List (List UInt8)) : List UInt8 := (lines.map fun l => l ++ [0]).flatten

namespace Typed

def start : Typed := ⟨[], 0, []⟩

/-- The bytes that wait in the queue. -/
def bytes (d : Typed) : List UInt8 := encode (d.completed.drop d.taken) ++ d.current

/-- A character is typed. -/
def cook (d : Typed) (ch : UInt8) : Typed :=
  if ch = newline then
    { d with completed := d.completed ++ [d.current ++ [newline]], current := [] }
  else if ch = backspace then { d with current := d.current.dropLast }
  else { d with current := d.current ++ [ch] }

/-- What `tty_cook` is to return. -/
def result (d : Typed) (ch : UInt8) : Nat := if ch = backspace ∧ d.current = [] then 1 else 0

/-- A line is read. -/
def read (d : Typed) : Typed := { d with taken := d.taken + 1 }

end Typed

/-- Every interleaving of calls: the terminal and what was typed and read. -/
inductive Session : Tty → Typed → Prop
  | init {buf : Nat → UInt8} : (∀ i, i < ttyCookBufSz → buf i = 0) →
      Session ⟨.init buf, 0⟩ .start
  | cook {t t' : Tty} {d : Typed} {ch : UInt8} {r : Nat} : Session t d → ch ≠ 0 →
      (d.cook ch).bytes.length < ttyCookBufSz → ttyCook t ch = .ok (r, t') → Session t' (d.cook ch)
  | read {t t' : Tty} {d : Typed} {count n : Nat} {out : List UInt8} : Session t d → 0 < t.cooked →
      ttyRead t count = .ok (n, out, t') → Session t' d.read

/-- The terminal agrees with what was typed and read. -/
structure Agrees (t : Tty) (d : Typed) : Prop where
  holds : Holds t.queue d.bytes
  cooked : t.cooked = d.completed.length - d.taken
  taken : d.taken ≤ d.completed.length
  lines : ∀ l ∈ d.completed, ∀ c ∈ l, c ≠ 0
  current : ∀ c ∈ d.current, c ≠ 0

theorem encode_append (l l' : List (List UInt8)) : encode (l ++ l') = encode l ++ encode l' := by
  simp [encode]

theorem encode_singleton (l : List UInt8) : encode [l] = l ++ [0] := by
  simp [encode]

theorem encode_snoc_or (lines : List (List UInt8)) :
    encode lines = [] ∨ ∃ l, encode lines = l ++ [0] := by
  rcases List.eq_nil_or_concat lines with rfl | ⟨ls, l, rfl⟩
  · exact .inl rfl
  · refine .inr ⟨encode ls ++ l, ?_⟩
    rw [List.concat_eq_append, encode_append, encode_singleton, List.append_assoc]

namespace Agrees

variable {t t' : Tty} {d : Typed} {ch : UInt8} {r : Nat}

theorem bytes_cook (d : Typed) (hn : ch ≠ newline) (hb : ch ≠ backspace) :
    (d.cook ch).bytes = d.bytes ++ [ch] := by
  unfold Typed.cook
  rw [if_neg hn, if_neg hb, Typed.bytes, Typed.bytes, List.append_assoc]

theorem bytes_newline (h : Agrees t d) : (d.cook newline).bytes = d.bytes ++ [newline] ++ [0] := by
  unfold Typed.cook
  rw [if_pos rfl, Typed.bytes, Typed.bytes, List.drop_append_of_le_length h.taken, encode_append,
    encode_singleton]
  simp

theorem cook_newline (h : Agrees t d) (hlt : (d.cook newline).bytes.length < ttyCookBufSz) :
    ∃ t', ttyCook t newline = .ok (0, t') ∧ Agrees t' (d.cook newline) ∧
      (Guarded t.queue → Guarded t'.queue) := by
  have hbytes := h.bytes_newline
  rw [hbytes, List.length_append, List.length_singleton] at hlt
  have hlt' := hlt
  rw [List.length_append, List.length_singleton] at hlt'
  obtain ⟨q₁, h₁, hq₁, hg₁⟩ := h.holds.enqueue newline (by omega)
  obtain ⟨q₂, h₂, hq₂, hg₂⟩ := hq₁.enqueue 0 hlt
  refine ⟨_, by rw [ttyCook, if_pos rfl, h₁, ok_bind, h₂]; rfl, ⟨hbytes ▸ hq₂, ?_, ?_, ?_, ?_⟩,
    fun hg => hg₂ (hg₁ hg)⟩
  · have := h.cooked
    simp [Typed.cook, this]
    omega
  · simp [Typed.cook]
    exact Nat.le_succ_of_le h.taken
  · intro l hl c hc
    simp only [Typed.cook, if_pos, List.mem_append, List.mem_singleton] at hl
    rcases hl with hl | rfl
    · exact h.lines l hl c hc
    · rcases List.mem_append.mp hc with hc | hc
      · exact h.current c hc
      · rw [List.mem_singleton.mp hc]
        decide
  · intro c hc
    simp [Typed.cook] at hc

/-- On an empty line a backspace changes nothing. -/
theorem cook_backspace_nil (h : Agrees t d) (hcur : d.current = [])
    (hg : d.bytes = [] → Guarded t.queue) :
    ttyCook t backspace = .ok (1, t) ∧ d.cook backspace = d := by
  have hbytes : d.bytes = encode (d.completed.drop d.taken) := by
    rw [Typed.bytes, hcur, List.append_nil]
  have hstop : ttyPopBack t.queue = (1, t.queue) := by
    refine h.holds.popBack_stop ?_
    rcases encode_snoc_or (d.completed.drop d.taken) with hnil | hsnoc
    · exact .inl ⟨hbytes.trans hnil, hg (hbytes.trans hnil)⟩
    · exact .inr (hbytes ▸ hsnoc)
  constructor
  · rw [ttyCook, if_neg (by decide), if_pos rfl, hstop]
  · rw [Typed.cook, if_neg (by decide), if_pos rfl, hcur, List.dropLast_nil, ← hcur]

theorem cook_backspace_snoc (h : Agrees t d) {l : List UInt8} {c : UInt8}
    (hcur : d.current = l ++ [c]) :
    ∃ t', ttyCook t backspace = .ok (0, t') ∧ Agrees t' (d.cook backspace) ∧
      (Guarded t.queue → Guarded t'.queue) := by
  have hcook : d.cook backspace = { d with current := l } := by
    rw [Typed.cook, if_neg (by decide), if_pos rfl, hcur, List.dropLast_concat]
  have hq := h.holds
  rw [Typed.bytes, hcur, ← List.append_assoc] at hq
  obtain ⟨q, hpop, hq', hg⟩ := hq.popBack (h.current c (by simp [hcur]))
  refine ⟨_, by rw [ttyCook, if_neg (by decide), if_pos rfl, hpop], ?_, hg⟩
  rw [hcook]
  exact ⟨hq', h.cooked, h.taken, h.lines, fun a ha => h.current a (by simp [hcur, ha])⟩

theorem cook_other (h : Agrees t d) (hch : ch ≠ 0) (hn : ch ≠ newline) (hb : ch ≠ backspace)
    (hlt : (d.cook ch).bytes.length < ttyCookBufSz) :
    ∃ t', ttyCook t ch = .ok (0, t') ∧ Agrees t' (d.cook ch) ∧
      (Guarded t.queue → Guarded t'.queue) := by
  have hbytes := bytes_cook d hn hb
  rw [hbytes, List.length_append, List.length_singleton] at hlt
  obtain ⟨q, hq, hq', hg⟩ := h.holds.enqueue ch hlt
  refine ⟨_, by rw [ttyCook, if_neg hn, if_neg hb, hq]; rfl, ⟨hbytes ▸ hq', ?_, ?_, ?_, ?_⟩, hg⟩
  · simp only [Typed.cook, if_neg hn, if_neg hb]
    exact h.cooked
  · simp only [Typed.cook, if_neg hn, if_neg hb]
    exact h.taken
  · simp only [Typed.cook, if_neg hn, if_neg hb]
    exact h.lines
  · simp only [Typed.cook, if_neg hn, if_neg hb]
    intro c hc
    rcases List.mem_append.mp hc with hc | hc
    · exact h.current c hc
    · rw [List.mem_singleton.mp hc]
      exact hch

/-- A character is typed while there is room for it. -/
theorem cook (h : Agrees t d) (hch : ch ≠ 0) (hlt : (d.cook ch).bytes.length < ttyCookBufSz)
    (hg : ch = backspace → d.bytes = [] → Guarded t.queue) :
    ∃ t', ttyCook t ch = .ok (d.result ch, t') ∧ Agrees t' (d.cook ch) ∧
      (Guarded t.queue → Guarded t'.queue) := by
  unfold Typed.result
  by_cases hn : ch = newline
  · subst hn
    rw [if_neg (by simp [newline, backspace])]
    exact h.cook_newline hlt
  · by_cases hb : ch = backspace
    · subst hb
      rcases List.eq_nil_or_concat d.current with hcur | ⟨l, c, hcur⟩
      · obtain ⟨hok, hsame⟩ := h.cook_backspace_nil hcur (hg rfl)
        rw [if_pos ⟨rfl, hcur⟩, hsame]
        exact ⟨t, hok, h, id⟩
      · rw [List.concat_eq_append] at hcur
        rw [if_neg (by simp [hcur])]
        exact h.cook_backspace_snoc hcur
    · rw [if_neg (fun hr => hb hr.1)]
      exact h.cook_other hch hn hb hlt

/-- Without room for the character the kernel panics. -/
theorem cook_or_full (h : Agrees t d) (ch : UInt8) :
    (d.cook ch).bytes.length < ttyCookBufSz ∨ ttyCook t ch = .error .exit := by
  have hfew := h.holds.few
  by_cases hn : ch = newline
  · subst hn
    rw [h.bytes_newline, List.length_append, List.length_append, List.length_singleton,
      List.length_singleton]
    by_cases h1 : d.bytes.length + 1 = ttyCookBufSz
    · exact .inr (by rw [ttyCook, if_pos rfl, h.holds.enqueue_full h1]; rfl)
    · obtain ⟨q, hq, hq', -⟩ := h.holds.enqueue newline (by omega)
      by_cases h2 : (d.bytes ++ [newline]).length + 1 = ttyCookBufSz
      · exact .inr (by rw [ttyCook, if_pos rfl, hq, ok_bind, hq'.enqueue_full h2]; rfl)
      · rw [List.length_append, List.length_singleton] at h2
        exact .inl (by omega)
  · by_cases hb : ch = backspace
    · left
      rw [Typed.cook, if_neg hn, if_pos hb, Typed.bytes, List.length_append, List.length_dropLast]
      rw [Typed.bytes, List.length_append] at hfew
      dsimp only
      omega
    · rw [bytes_cook d hn hb, List.length_append, List.length_singleton]
      by_cases h1 : d.bytes.length + 1 = ttyCookBufSz
      · exact .inr (by rw [ttyCook, if_neg hn, if_neg hb, h.holds.enqueue_full h1]; rfl)
      · exact .inl (by omega)

theorem cook_inv (h : Agrees t d) (hch : ch ≠ 0)
    (hg : ch = backspace → d.bytes = [] → Guarded t.queue) (hok : ttyCook t ch = .ok (r, t')) :
    Agrees t' (d.cook ch) := by
  rcases h.cook_or_full ch with hlt | herr
  · obtain ⟨t'', hok', h', -⟩ := h.cook hch hlt hg
    rw [hok] at hok'
    cases hok'
    exact h'
  · rw [herr] at hok
    cases hok

/-- While `cooked` is positive there is a line to read, and a read takes just this line. -/
theorem read (h : Agrees t d) (hpos : 0 < t.cooked) : ∃ line, d.completed[d.taken]? = some line ∧
    d.bytes = line ++ 0 :: d.read.bytes ∧
    ∀ count, ∃ t', ttyRead t count = .ok (line.length, line.take count, t') ∧ Agrees t' d.read ∧
      Guarded t'.queue := by
  have hlt : d.taken < d.completed.length := by
    have := h.cooked
    omega
  have hline := List.getElem?_eq_getElem hlt
  generalize d.completed[d.taken] = line at hline
  have hdrop : d.completed.drop d.taken = line :: d.completed.drop (d.taken + 1) := by
    rw [List.drop_eq_getElem_cons hlt]
    congr 1
    rw [List.getElem?_eq_getElem hlt] at hline
    exact Option.some.inj hline
  have hbytes : d.bytes = line ++ 0 :: d.read.bytes := by
    rw [Typed.bytes, hdrop, ← List.singleton_append, encode_append, encode_singleton]
    simp [Typed.read, Typed.bytes]
  have hq := h.holds
  rw [hbytes] at hq
  have hnul := h.lines line (List.mem_of_getElem? hline)
  refine ⟨line, hline, hbytes, fun count => ?_⟩
  obtain ⟨hrest, hg⟩ := hq.drop
  have hcooked := h.cooked
  refine ⟨_, hq.ttyRead hnul count, ⟨hrest, ?_, hlt, h.lines, h.current⟩, hg⟩
  · simp only [Typed.read]
    push_cast
    omega

/-- Every session keeps the terminal in step with what was typed and read. -/
theorem of_session (hs : Session t d) : Agrees t d ∧ Guarded t.queue := by
  induction hs with
  | @init buf hzero =>
    refine ⟨⟨Holds.init buf, rfl, le_rfl, ?_, ?_⟩, Guarded.init (hzero _ (by decide))⟩
    · intro l hl
      cases hl
    · intro c hc
      cases hc
  | @cook t t' d ch r _ hch hlt hcook ih =>
    obtain ⟨t'', hok, h', hg'⟩ := ih.1.cook hch hlt fun _ _ => ih.2
    rw [hcook] at hok
    cases hok
    exact ⟨h', hg' ih.2⟩
  | @read t t' d count n out _ hpos hread ih =>
    obtain ⟨line, -, -, hline⟩ := ih.1.read hpos
    obtain ⟨t'', hok, h'⟩ := hline count
    rw [hread] at hok
    cases hok
    exact h'

end Agrees

/-- The line discipline: in every session `tty_cook` accepts what there is room for, and
returns 1 only for a backspace on an empty line, which changes nothing; the next
`tty_read` returns the next completed line; and what waits in the queue are the unread
lines, as they were typed, and the current one. -/
theorem line_discipline {t : Tty} {d : Typed} (h : Session t d) :
    (∀ ch, ch ≠ 0 → (d.cook ch).bytes.length < ttyCookBufSz →
      ∃ t', ttyCook t ch = .ok (d.result ch, t')) ∧
    (d.current = [] → ttyCook t backspace = .ok (1, t)) ∧
    (0 < t.cooked → ∃ line, d.completed[d.taken]? = some line ∧
      ∀ count, line.length ≤ count → ∃ t', ttyRead t count = .ok (line.length, line, t')) ∧
    t.cooked = d.completed.length - d.taken ∧
    ring ttyCookBufSz t.queue.buf t.queue.front d.bytes.length = d.bytes := by
  obtain ⟨hd, hg⟩ := Agrees.of_session h
  refine ⟨fun ch hch hlt => ?_, fun hcur => (hd.cook_backspace_nil hcur fun _ => hg).1,
    fun hpos => ?_,
    hd.cooked, hd.holds.cells⟩
  · obtain ⟨t', hok, -⟩ := hd.cook hch hlt fun _ _ => hg
    exact ⟨t', hok⟩
  · obtain ⟨line, hline, -, hread⟩ := hd.read hpos
    refine ⟨line, hline, fun count hcount => ?_⟩
    obtain ⟨t', hok, -⟩ := hread count
    rw [List.take_of_length_le hcount] at hok
    exact ⟨t', hok⟩

/-- A line of one character is typed. -/
theorem line_discipline_one_line : ∃ t, Session t ((Typed.start.cook 97).cook newline) ∧
    ∃ t', ttyRead t 8 = .ok (2, [97, newline], t') := by
  have h₀ : Session ⟨.init fun _ => 0, 0⟩ .start := .init fun _ _ => rfl
  obtain ⟨t₁, hok₁, ha₁, -⟩ :=
    (Agrees.of_session h₀).1.cook (show (97 : UInt8) ≠ 0 by decide) (by decide)
    fun he => absurd he (by decide)
  have hs₁ := h₀.cook (show (97 : UInt8) ≠ 0 by decide) (by decide) hok₁
  obtain ⟨t₂, hok₂, -⟩ := ha₁.cook (show newline ≠ 0 by decide) (by decide)
    fun he => absurd he (by decide)
  have hs₂ := hs₁.cook (show newline ≠ 0 by decide) (by decide) hok₂
  have hd := line_discipline hs₂
  refine ⟨t₂, hs₂, ?_⟩
  have hcooked : t₂.cooked = 1 := hd.2.2.2.1
  obtain ⟨line, hline, hread⟩ := hd.2.2.1 (by omega)
  cases hline
  exact hread 8 (by decide)

/-! ## The count of a read -/

/-- `buf[nread - 1]`, which `shell_task` writes, and `buf[nread - 2]`, which `catto_do` reads,
are in a buffer of `count` bytes. -/
def InBuffer (count nread : Nat) : Prop :=
  (0 ≤ (nread : Int) - 1 ∧ (nread : Int) - 1 < count) ∧
    0 ≤ (nread : Int) - 2 ∧ (nread : Int) - 2 < count

/-- The read stores nothing past `count` bytes, returns how many it stored, and stops behind
the terminator of the line; and its callers stay in their buffers. -/
def RespectsCount (t : Tty) (line : List UInt8) (count : Nat) : Prop :=
  ∃ nread out t', ttyRead t count = .ok (nread, out, t') ∧ out.length ≤ count ∧ nread ≤ count ∧
    nread = out.length ∧ t'.queue.front = (t.queue.front + (line.length + 1)) % ttyCookBufSz ∧
    InBuffer count nread

/-- A read respects its count exactly for the lines that fit, and have a character in front of
the newline. -/
theorem respectsCount_iff {t : Tty} {line rest : List UInt8}
    (h : Holds t.queue (line ++ 0 :: rest)) (hline : ∀ c ∈ line, c ≠ 0) (count : Nat) :
    RespectsCount t line count ↔ 2 ≤ line.length ∧ line.length ≤ count := by
  constructor
  · rintro ⟨nread, out, t', hread, -, hle, -, -, -, hmin, -⟩
    rw [h.ttyRead hline] at hread
    cases hread
    exact ⟨by omega, hle⟩
  · rintro ⟨htwo, hle⟩
    have hout : (line.take count).length = line.length := by
      rw [List.take_of_length_le hle]
    have hin : InBuffer count line.length := by
      refine ⟨⟨?_, ?_⟩, ?_, ?_⟩ <;> omega
    exact ⟨_, _, _, h.ttyRead hline count, hout.trans_le hle, hle, hout.symm, rfl, hin⟩

/-- A queue with one line. -/
def lineQueue (line : List UInt8) : TtyQueue := ⟨fun i => line.getD i 0, 0, line.length + 1⟩

theorem holds_lineQueue {line : List UInt8} (h : line.length + 1 < ttyCookBufSz) :
    Holds (lineQueue line) (line ++ 0 :: []) where
  front := (by decide : 0 < ttyCookBufSz)
  few := by
    rw [List.length_append]
    exact h
  rear := by
    rw [List.length_append, Nat.mod_eq_of_lt (by simpa [lineQueue] using h)]
    exact (Nat.zero_add _).symm
  cells := by
    refine List.ext_getElem (by simp) fun i hi _ => ?_
    rw [Ring.length_ring, List.length_append, List.length_singleton] at hi
    have hmod : (0 + i) % ttyCookBufSz = i := by rw [Nat.zero_add, Nat.mod_eq_of_lt (by omega)]
    simp only [ring, lineQueue, List.getElem_map, List.getElem_range, hmod]
    by_cases hlt : i < line.length
    · rw [List.getElem_append_left hlt, List.getD_eq_getElem _ _ hlt]
    · obtain rfl : i = line.length := by omega
      rw [List.getElem_append_right le_rfl, List.getD_eq_default _ _ le_rfl]
      simp

theorem respectsCount_short :
    RespectsCount ⟨lineQueue [97, newline], 1⟩ [97, newline] 128 :=
  (respectsCount_iff (t := ⟨lineQueue [97, newline], 1⟩) (holds_lineQueue (by decide))
    (by simp [newline]) 128).mpr ⟨by decide, by decide⟩

/-- A line of 201 bytes. -/
def longLine : List UInt8 := List.replicate 200 97 ++ [newline]

/-- Of a line of 201 bytes, `tty_read` stores 128 in a buffer of that size and returns 201. -/
theorem longLine_exceeds_count :
    ¬RespectsCount ⟨lineQueue longLine, 1⟩ longLine 128 ∧
    ∃ out t', ttyRead ⟨lineQueue longLine, 1⟩ 128 = .ok (longLine.length, out, t') ∧
      longLine.length = 201 ∧ out.length = 128 := by
  have hlen : longLine.length = 201 := by
    rw [longLine, List.length_append, List.length_replicate, List.length_singleton]
  have hnul : ∀ c ∈ longLine, c ≠ 0 := by
    intro c hc
    rcases List.mem_append.mp hc with hc | hc
    · rw [List.eq_of_mem_replicate hc]
      decide
    · rw [List.mem_singleton.mp hc]
      decide
  have hq := holds_lineQueue (show longLine.length + 1 < ttyCookBufSz by rw [hlen]; decide)
  have hread := Holds.ttyRead (t := ⟨lineQueue longLine, 1⟩) hq hnul 128
  refine ⟨?_, _, _, hread, hlen, by rw [List.length_take, hlen]; rfl⟩
  rintro ⟨nread, out, t', h, -, hle, -⟩
  rw [hread] at h
  cases h
  omega

end OsWorkbench.Dev
