import OsWorkbench.Lib.Owned
import OsWorkbench.Vme.Model

/-!
# Trees of page tables

A directory and the tables that it points to. `Tree` says which word stands for each page;
new tables and new words keep it, and it gives what the processor sees.
-/

namespace OsWorkbench.Vme

/-- The address of a page that the kernel reaches where it is. -/
def Page (p : Nat) : Prop := p % pgSize = 0 ∧ kernelArea.Contains p

/-! ## Words with flags -/

theorem or_flags {f p : Nat} (hf : f < pgSize) (hp : p % pgSize = 0) : f ||| p = p + f := by
  obtain ⟨k, rfl⟩ := Nat.dvd_of_mod_eq_zero hp
  have h := Nat.two_pow_add_eq_or_of_lt (b := f) (i := 12) hf k
  rw [show pgSize = 2 ^ 12 from rfl, Nat.lor_comm]
  exact h.symm

theorem testBit_flags {f p i : Nat} (hf : f < pgSize) (hp : p % pgSize = 0) (hi : i < 12) :
    (p + f).testBit i = f.testBit i := by
  obtain ⟨k, rfl⟩ := Nat.dvd_of_mod_eq_zero hp
  rw [show pgSize = 2 ^ 12 from rfl, Nat.testBit_two_pow_mul_add k hf, if_pos hi]

/-- The flags do not depend on the address beside them. -/
theorem and_flags {f p x : Nat} (hf : f < pgSize) (hp : p % pgSize = 0) (hx : x < pgSize) :
    (p + f) &&& x = f &&& x := by
  refine Nat.eq_of_testBit_eq fun i => ?_
  rw [Nat.testBit_and, Nat.testBit_and]
  rcases Nat.lt_or_ge i 12 with hi | hi
  · rw [testBit_flags hf hp hi]
  · have hlow : x < 2 ^ i := Nat.lt_of_lt_of_le hx (Nat.pow_le_pow_right (Nat.succ_pos 1) hi)
    rw [Nat.testBit_lt_two_pow hlow, Bool.and_false, Bool.and_false]

theorem pteAddr_add {f p : Nat} (hf : f < pgSize) (hp : p % pgSize = 0) : pteAddr (p + f) = p := by
  unfold pteAddr pgSize at *
  omega

theorem pteAddr_page {p : Nat} (hp : p % pgSize = 0) : pteAddr p = p :=
  pteAddr_add (f := 0) (by decide) hp

/-! ## Entries -/

theorem entry_inj {p q i j : Nat} (hp : p % pgSize = 0) (hq : q % pgSize = 0) (hi : i < nrEntries)
    (hj : j < nrEntries) (h : entry p i = entry q j) : p = q ∧ i = j := by
  unfold entry pgSize nrEntries at *
  omega

/-- An address outside of a page. -/
def Off (page a : Nat) : Prop := ∀ i < nrEntries, a ≠ entry page i

theorem off_entry {p q i : Nat} (hp : p % pgSize = 0) (hq : q % pgSize = 0) (hi : i < nrEntries)
    (hne : p ≠ q) : Off q (entry p i) := by
  intro j hj h
  exact hne (entry_inj hp hq hi hj h).1

/-- The words of a page. -/
def Words (mem : Mem) (page : Nat) (f : Nat → Nat) : Prop :=
  ∀ i < nrEntries, mem (entry page i) = f i

/-- The pages `ps` hold the same words. -/
def Agree (mem mem' : Mem) (ps : List Nat) : Prop :=
  ∀ p ∈ ps, ∀ i < nrEntries, mem' (entry p i) = mem (entry p i)

theorem Agree.trans {mem mem' mem'' : Mem} {ps : List Nat} (h : Agree mem mem' ps)
    (h' : Agree mem' mem'' ps) : Agree mem mem'' ps :=
  fun p hp i hi => (h' p hp i hi).trans (h p hp i hi)

theorem Words.congr {mem mem' : Mem} {ps : List Nat} {p : Nat} {f : Nat → Nat} (h : Words mem p f)
    (ha : Agree mem mem' ps) (hp : p ∈ ps) : Words mem' p f :=
  fun i hi => (ha p hp i hi).trans (h i hi)

theorem agree_of_off {mem mem' : Mem} {q : Nat} {ps : List Nat}
    (hmem : ∀ a, Off q a → mem' a = mem a) (hps : ∀ p ∈ ps, p % pgSize = 0) (hq : q % pgSize = 0)
    (hnot : q ∉ ps) : Agree mem mem' ps := by
  intro p hp i hi
  exact hmem _ (off_entry (hps p hp) hq hi fun h => hnot (h ▸ hp))

theorem agree_update {mem : Mem} {q j v : Nat} {ps : List Nat} (hps : ∀ p ∈ ps, p % pgSize = 0)
    (hq : q % pgSize = 0) (hj : j < nrEntries) (hnot : q ∉ ps) :
    Agree mem (Function.update mem (entry q j) v) ps :=
  agree_of_off (fun _ ha => Function.update_of_ne (ha j hj) _ _) hps hq hnot

theorem words_update {mem : Mem} {p j v : Nat} {f : Nat → Nat} (h : Words mem p f)
    (hp : p % pgSize = 0) (hj : j < nrEntries) :
    Words (Function.update mem (entry p j) v) p (Function.update f j v) := by
  intro i hi
  by_cases hij : i = j
  · rw [hij, Function.update_self, Function.update_self]
  · have hne : entry p i ≠ entry p j := fun he => hij (entry_inj hp hp hi hj he).2
    rw [Function.update_of_ne hne, Function.update_of_ne hij, h i hi]

/-! ## Loops over a page -/

/-- A loop over the words of a page that reads nothing from it. -/
theorem foldl_words {g : Mem → Nat → Nat} {q : Nat} {mem : Mem}
    (hg : ∀ mem' i, (∀ a, Off q a → mem' a = mem a) → i < nrEntries → g mem' i = g mem i)
    {n : Nat} (hn : n ≤ nrEntries) :
    (∀ i < n, (List.range n).foldl (fun m i => Function.update m (entry q i) (g m i)) mem
      (entry q i) = g mem i) ∧
    ∀ a, Off q a →
      (List.range n).foldl (fun m i => Function.update m (entry q i) (g m i)) mem a = mem a := by
  induction n with
  | zero => exact ⟨fun i hi => absurd hi (Nat.not_lt_zero i), fun a _ => rfl⟩
  | succ n ih =>
    obtain ⟨hin, hout⟩ := ih (Nat.le_of_succ_le hn)
    rw [List.range_succ, List.foldl_append]
    refine ⟨fun i hi => ?_, fun a ha => ?_⟩
    · rw [List.foldl_cons, List.foldl_nil]
      rcases Nat.lt_succ_iff_lt_or_eq.mp hi with hlt | rfl
      · have hne : entry q i ≠ entry q n := by unfold entry; omega
        rw [Function.update_of_ne hne, hin i hlt]
      · rw [Function.update_self, hg _ i hout hn]
    · exact (Function.update_of_ne (ha n hn) _ _).trans (hout a ha)

theorem zeroPage_words (page : Nat) (mem : Mem) :
    Words (zeroPage page mem) page (fun _ => 0) ∧
      ∀ a, Off page a → zeroPage page mem a = mem a := by
  unfold zeroPage
  exact foldl_words (g := fun _ _ => 0) (fun _ _ _ _ => rfl) (Nat.le_refl _)

theorem copyPage_words {src dst : Nat} (mem : Mem) (hsrc : src % pgSize = 0)
    (hdst : dst % pgSize = 0) (hne : src ≠ dst) :
    Words (copyPage src dst mem) dst (fun i => mem (entry src i)) ∧
      ∀ a, Off dst a → copyPage src dst mem a = mem a := by
  unfold copyPage
  exact foldl_words (g := fun m i => m (entry src i))
    (fun _ _ hoff hi => hoff _ (off_entry hsrc hdst hi hne)) (Nat.le_refl _)

/-! ## The tree -/

def dirEntry (flags : Nat) : Option Nat → Nat
  | none => 0
  | some table => table + flags

/-- The directory entries `ds` of `root` point to the tables `dirs`, and these hold the word
`leaf n` for the page of number `n`. -/
structure Tree (mem : Mem) (root : Nat) (ds : List Nat) (flags : Nat) (dirs : Nat → Option Nat)
    (leaf : Nat → Nat) : Prop where
  dir : ∀ d ∈ ds, mem (entry root d) = dirEntry flags (dirs d)
  table : ∀ d ∈ ds, ∀ t, dirs d = some t → Words mem t fun i => leaf (d * nrEntries + i)
  empty : ∀ d ∈ ds, dirs d = none → ∀ i < nrEntries, leaf (d * nrEntries + i) = 0

/-- The pages that a tree owns. -/
def pagesOf (root : Nat) (ds : List Nat) (dirs : Nat → Option Nat) : List Nat :=
  root :: ds.filterMap dirs

section Tree

variable {mem mem' : Mem} {root : Nat} {ds : List Nat} {flags : Nat} {dirs : Nat → Option Nat}
  {leaf : Nat → Nat}

theorem mem_pagesOf {d t : Nat} (hd : d ∈ ds) (ht : dirs d = some t) : t ∈ pagesOf root ds dirs :=
  List.mem_cons_of_mem _ (Lib.mem_filterMap_of_eq hd ht)

theorem Tree.congr (h : Tree mem root ds flags dirs leaf) (hds : ∀ d ∈ ds, d < nrEntries)
    (ha : Agree mem mem' (pagesOf root ds dirs)) : Tree mem' root ds flags dirs leaf where
  dir d hd := (ha root List.mem_cons_self d (hds d hd)).trans (h.dir d hd)
  table d hd t ht := (h.table d hd t ht).congr ha (mem_pagesOf hd ht)
  empty := h.empty

theorem Tree.congr_leaf {leaf' : Nat → Nat} (h : Tree mem root ds flags dirs leaf)
    (hl : ∀ n, leaf' n = leaf n) : Tree mem root ds flags dirs leaf' := by
  rw [show leaf' = leaf from funext hl]
  exact h

/-- Two directory entries never share a table. -/
theorem dirs_inj (hnd : (pagesOf root ds dirs).Nodup) {d e t : Nat} (hd : d ∈ ds)
    (he : e ∈ ds) (h : dirs d = some t) (h' : dirs e = some t) : e = d := by
  by_contra hne
  have hflat := (List.nodup_cons.mp hnd).2
  rw [List.filterMap_eq_flatMap_toList] at hflat
  have hin : t ∈ (dirs d).toList := by rw [h]; exact List.mem_singleton.mpr rfl
  have hnot := Lib.not_mem_of_flatMap_nodup hflat hd he hne hin
  rw [h'] at hnot
  exact hnot (List.mem_singleton.mpr rfl)

/-- A new word in a table. -/
theorem Tree.put (h : Tree mem root ds flags dirs leaf) (hds : ∀ d ∈ ds, d < nrEntries)
    (hnd : (pagesOf root ds dirs).Nodup)
    (hal : ∀ p ∈ pagesOf root ds dirs, p % pgSize = 0) {d i t : Nat} (hd : d ∈ ds)
    (hi : i < nrEntries) (ht : dirs d = some t) (v : Nat) :
    Tree (Function.update mem (entry t i) v) root ds flags dirs
      (Function.update leaf (d * nrEntries + i) v) := by
  have htm : t ∈ pagesOf root ds dirs := mem_pagesOf hd ht
  have hrt : root ≠ t := fun he =>
    (List.nodup_cons.mp hnd).1 (he ▸ Lib.mem_filterMap_of_eq hd ht)
  have hroot : root % pgSize = 0 := hal root List.mem_cons_self
  refine ⟨fun e he => ?_, fun e he u hu j hj => ?_, fun e he hn j hj => ?_⟩
  · rw [Function.update_of_ne (off_entry hroot (hal t htm) (hds e he) hrt i hi)]
    exact h.dir e he
  · have hum : u ∈ pagesOf root ds dirs := mem_pagesOf he hu
    by_cases hed : e = d
    · obtain rfl : u = t := Option.some.inj (hu.symm.trans (hed ▸ ht))
      rw [words_update (h.table e he u hu) (hal u hum) hi j hj, hed]
      dsimp only
      by_cases hji : j = i
      · rw [hji, Function.update_self, Function.update_self]
      · rw [Function.update_of_ne hji, Function.update_of_ne (by omega)]
    · have hut : u ≠ t := fun heq => hed (dirs_inj hnd hd he ht (heq ▸ hu))
      rw [Function.update_of_ne (off_entry (hal u hum) (hal t htm) hj hut i hi),
        h.table e he u hu j hj]
      refine (Function.update_of_ne ?_ _ _).symm
      unfold nrEntries at *
      omega
  · have hed : e ≠ d := by
      rintro rfl
      rw [ht] at hn
      cases hn
    rw [Function.update_of_ne, h.empty e he hn j hj]
    unfold nrEntries at *
    omega

/-- A new table, filled with zeros. -/
theorem Tree.grow (h : Tree mem root ds flags dirs leaf) (hds : ∀ d ∈ ds, d < nrEntries)
    (hal : ∀ p ∈ pagesOf root ds dirs, p % pgSize = 0) (hroot : root ∉ ds.filterMap dirs)
    {d t : Nat}
    (hd : d ∈ ds) (hnone : dirs d = none) (ht : t % pgSize = 0) (hnew : t ∉ pagesOf root ds dirs)
    (hzero : Words mem t fun _ => 0) :
    Tree (Function.update mem (entry root d) (t + flags)) root ds flags
      (Function.update dirs d (some t)) leaf := by
  have hrp : root % pgSize = 0 := hal root List.mem_cons_self
  have hother : ∀ p, p % pgSize = 0 → p ≠ root → ∀ j < nrEntries,
      Function.update mem (entry root d) (t + flags) (entry p j) = mem (entry p j) :=
    fun p hp hne j hj => Function.update_of_ne (off_entry hp hrp hj hne d (hds d hd)) _ _
  refine ⟨fun e he => ?_, fun e he u hu j hj => ?_, fun e he hn j hj => ?_⟩
  · by_cases hed : e = d
    · rw [hed, Function.update_self, Function.update_self]
      rfl
    · have hne : entry root e ≠ entry root d := by unfold entry; omega
      rw [Function.update_of_ne hne, Function.update_of_ne hed]
      exact h.dir e he
  · by_cases hed : e = d
    · rw [hed, Function.update_self] at hu
      obtain rfl : t = u := Option.some.inj hu
      have hne : t ≠ root := fun heq => hnew (heq ▸ List.mem_cons_self)
      rw [hother t ht hne j hj, hzero j hj, hed]
      exact (h.empty d hd hnone j hj).symm
    · rw [Function.update_of_ne hed] at hu
      have hum : u ∈ pagesOf root ds dirs := mem_pagesOf he hu
      have hne : u ≠ root := fun heq => hroot (heq ▸ Lib.mem_filterMap_of_eq he hu)
      rw [hother u (hal u hum) hne j hj, h.table e he u hu j hj]
  · by_cases hed : e = d
    · rw [hed, Function.update_self] at hn
      cases hn
    · rw [Function.update_of_ne hed] at hn
      exact h.empty e he hn j hj

/-! ## The walk -/

/-- What a word in a table means for an address of its page. -/
def leafAccess (flags w va : Nat) : Option Access :=
  if w &&& pteP = 0 then none
  else some ⟨pteAddr w + va % pgSize, flags &&& (w &&& pteW) ≠ 0, flags &&& (w &&& pteU) ≠ 0⟩

theorem pdx_ptx {va : Nat} (h : va < 2 ^ 32) : pdx va * nrEntries + ptx va = va / pgSize := by
  unfold pdx ptx nrEntries pgSize
  omega

theorem ptx_lt (va : Nat) : ptx va < nrEntries := Nat.mod_lt _ (by decide)

theorem pdx_lt (va : Nat) : pdx va < nrEntries := Nat.mod_lt _ (by decide)

theorem translate_tree (h : Tree mem root ds flags dirs leaf)
    (hal : ∀ p ∈ pagesOf root ds dirs, p % pgSize = 0) (hf : flags < pgSize)
    (hp : flags &&& pteP ≠ 0) {va : Nat} (hva : va < 2 ^ 32) (hd : pdx va ∈ ds) :
    translate mem root va = leafAccess flags (leaf (va / pgSize)) va := by
  have hroot : root % pgSize = 0 := hal root List.mem_cons_self
  unfold translate leafAccess
  rw [pteAddr_page hroot]
  dsimp only
  rw [h.dir _ hd, ← pdx_ptx hva]
  cases ht : dirs (pdx va) with
  | none =>
    rw [h.empty _ hd ht _ (ptx_lt va), if_pos (Nat.zero_and _), if_pos (.inl (Nat.zero_and _))]
  | some t =>
    have htp : t % pgSize = 0 := hal t (mem_pagesOf hd ht)
    rw [dirEntry, pteAddr_add hf htp, h.table _ hd t ht _ (ptx_lt va),
      and_flags hf htp (by decide : pteP < pgSize)]
    by_cases hw : leaf (pdx va * nrEntries + ptx va) &&& pteP = 0
    · rw [if_pos (.inr hw), if_pos hw]
    · have hlow : ∀ x w : Nat, x < pgSize → (t + flags) &&& w &&& x = flags &&& (w &&& x) :=
        fun x w hx => by
          rw [Nat.and_assoc, and_flags hf htp (Nat.lt_of_le_of_lt Nat.and_le_right hx)]
      rw [if_neg (not_or.mpr ⟨hp, hw⟩), if_neg hw, hlow _ _ (by decide), hlow _ _ (by decide)]

/-- Directories with the same entry lead to the same place. -/
theorem translate_congr {root' va : Nat} (hr : root % pgSize = 0) (hr' : root' % pgSize = 0)
    (h : mem (entry root (pdx va)) = mem (entry root' (pdx va))) :
    translate mem root va = translate mem root' va := by
  unfold translate
  rw [pteAddr_page hr, pteAddr_page hr', h]

end Tree

end OsWorkbench.Vme
