import OsWorkbench.Vme.Spaces

/-!
# Runs of `protect`, `map` and `unprotect`

The invariant of a run: the table pages of the kernel and of each address space in use are
pairwise different and are what the allocator has given away since `vme_init` began. Every
call keeps it, and it says what the processor sees.
-/

namespace OsWorkbench.Vme

variable {σ : Type}

/-- The directory entries of the user area. -/
def userEntries : List Nat := List.range' 256 256

theorem mem_userEntries {d : Nat} : d ∈ userEntries ↔ 256 ≤ d ∧ d < 512 := List.mem_range'_1

theorem userEntries_lt : ∀ d ∈ userEntries, d < nrEntries := by
  intro d hd
  rw [mem_userEntries] at hd
  unfold nrEntries
  omega

theorem pdx_user {va : Nat} (h : uvmArea.Contains va) : pdx va ∈ userEntries := by
  obtain ⟨h₁, h₂⟩ := h
  rw [mem_userEntries]
  unfold pdx uvmArea at *
  simp only at h₁ h₂
  omega

theorem contains_of_pdx {va : Nat} (hva : va < 2 ^ 32) (h : pdx va ∈ userEntries) :
    uvmArea.Contains va := by
  rw [mem_userEntries] at h
  unfold pdx at h
  constructor <;> unfold uvmArea <;> simp only <;> omega

/-- The flags of a page that `map` maps. -/
def frameFlags (writable : Bool) : Nat := if writable then 7 else 5

/-- The word for a page of the user area. -/
def slot : Option Frame → Nat
  | none => 0
  | some f => f.pa + frameFlags f.writable

def spacePages (dirs : Nat → Nat → Option Nat) (p : AddressSpace) : List Nat :=
  pagesOf p.ptr userEntries (dirs p.ptr)

/-- The state between two calls. `kd` are the tables of the kernel, and `dirs` those of the
directories in use. -/
structure Inv (held : σ → List Nat) (base : List Nat) (kpt : Nat) (kd : Nat → Option Nat)
    (dirs : Nat → Nat → Option Nat) (w : World σ) : Prop where
  root : w.state.kpt = kpt
  kernel : Tree w.state.mem kpt allEntries 3 kd (kernelLeaf kernelPage)
  unmapped : ∀ d ∈ userEntries, kd d = none
  nodup : (held w.state.heap).Nodup
  perm : (held w.state.heap).Perm
    (w.live.flatMap (spacePages dirs) ++ (pagesOf kpt allEntries kd ++ base))
  page : ∀ p ∈ w.live.flatMap (spacePages dirs) ++ pagesOf kpt allEntries kd, Page p
  live : w.live.Nodup
  space : ∀ p ∈ w.live, Tree w.state.mem p.ptr userEntries 7 (dirs p.ptr)
    fun n => slot (w.mapping p.ptr n)
  frames : ∀ p ∈ w.live, ∀ n f, w.mapping p.ptr n = some f → f.pa % pgSize = 0
  shared : ∀ p ∈ w.live, ∀ d < nrEntries, d ∉ userEntries →
    w.state.mem (entry p.ptr d) = w.state.mem (entry kpt d)

section

variable {A : Allocator σ} {held : σ → List Nat} {base : List Nat} {kpt : Nat}
  {kd : Nat → Option Nat} {dirs : Nat → Nat → Option Nat} {w w' : World σ}

theorem Inv.start {s : State σ} (hb : Booting held base kd kernelPage s) :
    Inv held base s.kpt kd dirs (World.start s) where
  root := rfl
  kernel := hb.tree
  unmapped d hd := by
    by_contra h
    obtain ⟨i, hi, hdone⟩ := hb.covers d h
    rw [mem_userEntries] at hd
    simp only [kernelPage, Bool.or_eq_true, Bool.and_eq_true, decide_eq_true_eq] at hdone
    unfold nrEntries at *
    omega
  nodup := hb.nodup
  perm := hb.perm
  page := hb.page
  live := List.nodup_nil
  space p hp := nomatch hp
  frames p hp := nomatch hp
  shared p hp := nomatch hp

/-! ## Whose page a page is -/

theorem ptr_mem_spacePages (p : AddressSpace) : p.ptr ∈ spacePages dirs p := List.mem_cons_self

theorem Inv.space_held (h : Inv held base kpt kd dirs w) {p : AddressSpace} (hp : p ∈ w.live) :
    spacePages dirs p ⊆ held w.state.heap := fun _ hx =>
  h.perm.mem_iff.mpr (List.mem_append_left _ (List.mem_flatMap.mpr ⟨p, hp, hx⟩))

theorem Inv.kernel_held (h : Inv held base kpt kd dirs w) :
    pagesOf kpt allEntries kd ⊆ held w.state.heap := fun _ hx =>
  h.perm.mem_iff.mpr (List.mem_append_right _ (List.mem_append_left _ hx))

theorem Inv.space_page (h : Inv held base kpt kd dirs w) {p : AddressSpace} (hp : p ∈ w.live) :
    ∀ x ∈ spacePages dirs p, Page x := fun x hx =>
  h.page x (List.mem_append_left _ (List.mem_flatMap.mpr ⟨p, hp, hx⟩))

theorem Inv.kernel_page (h : Inv held base kpt kd dirs w) :
    ∀ x ∈ pagesOf kpt allEntries kd, Page x := fun x hx =>
  h.page x (List.mem_append_right _ hx)

theorem Inv.all_nodup (h : Inv held base kpt kd dirs w) :
    (w.live.flatMap (spacePages dirs) ++ (pagesOf kpt allEntries kd ++ base)).Nodup :=
  h.perm.nodup_iff.mp h.nodup

theorem Inv.space_nodup (h : Inv held base kpt kd dirs w) {p : AddressSpace} (hp : p ∈ w.live) :
    (spacePages dirs p).Nodup :=
  (List.nodup_flatMap.mp (List.nodup_append.mp h.all_nodup).1).1 p hp

theorem Inv.not_kernel (h : Inv held base kpt kd dirs w) {p : AddressSpace} (hp : p ∈ w.live)
    {x : Nat} (hx : x ∈ pagesOf kpt allEntries kd) : x ∉ spacePages dirs p := fun hs =>
  (List.nodup_append.mp h.all_nodup).2.2 x (List.mem_flatMap.mpr ⟨p, hp, hs⟩) x
    (List.mem_append_left _ hx) rfl

theorem Inv.not_other (h : Inv held base kpt kd dirs w) {p q : AddressSpace} (hp : p ∈ w.live)
    (hq : q ∈ w.live) (hne : q ≠ p) {x : Nat} (hx : x ∈ spacePages dirs q) :
    x ∉ spacePages dirs p :=
  Lib.not_mem_of_flatMap_nodup (List.nodup_append.mp h.all_nodup).1 hq hp (Ne.symm hne) hx

theorem Inv.ptr_ne (h : Inv held base kpt kd dirs w) {p q : AddressSpace} (hp : p ∈ w.live)
    (hq : q ∈ w.live) (hne : q ≠ p) : q.ptr ≠ p.ptr := fun he =>
  h.not_other hp hq hne (ptr_mem_spacePages q) (he ▸ ptr_mem_spacePages p)

/-! ## `protect` -/

theorem Inv.protect (hA : Sound A held) (h : Inv held base kpt kd dirs w)
    (hs : step A w .protect = .ok w') : ∃ dirs', Inv held base kpt kd dirs' w' := by
  obtain ⟨r, hr, hs⟩ := bind_eq_ok.mp hs
  obtain rfl := Except.ok.inj hs
  obtain ⟨q, hq, hr⟩ := bind_eq_ok.mp hr
  obtain rfl := Except.ok.inj hr
  have hfr := pgalloc_fresh hA hq
  have hkpt : q.2.kpt = kpt := hfr.kpt.trans h.root
  have hkp : kpt % pgSize = 0 := (h.kernel_page kpt List.mem_cons_self).1
  have hne : kpt ≠ q.1 := fun he => hfr.new (he ▸ h.kernel_held List.mem_cons_self)
  obtain ⟨hcopy, hrest⟩ := copyPage_words q.2.mem hkp hfr.page.1 hne
  have hoff : ∀ a, Off q.1 a → copyPage kpt q.1 q.2.mem a = w.state.mem a := fun a ha =>
    (hrest a ha).trans (hfr.rest a ha)
  have hagree : ∀ ps ⊆ held w.state.heap, (∀ p ∈ ps, Page p) →
      Agree w.state.mem (copyPage kpt q.1 q.2.mem) ps := fun ps hps hpage =>
    agree_of_off hoff (fun p hp => (hpage p hp).1) hfr.page.1 fun hm => hfr.new (hps hm)
  have hold : ∀ p ∈ w.live, p.ptr ≠ q.1 := fun p hp he =>
    hfr.new (he ▸ h.space_held hp (ptr_mem_spacePages p))
  have hkernel : ∀ d < nrEntries,
      copyPage kpt q.1 q.2.mem (entry kpt d) = w.state.mem (entry kpt d) := fun d hd =>
    hoff _ (off_entry hkp hfr.page.1 hd hne)
  have hnew : ∀ d < nrEntries,
      copyPage kpt q.1 q.2.mem (entry q.1 d) = w.state.mem (entry kpt d) := fun d hd =>
    (hcopy d hd).trans (hfr.rest _ (off_entry hkp hfr.page.1 hd hne))
  have hpages : ∀ p ∈ w.live, spacePages (Function.update dirs q.1 fun _ => none) p =
      spacePages dirs p := fun p hp => by
    rw [spacePages, Function.update_of_ne (hold p hp)]
    rfl
  have hself : ∀ p : AddressSpace, p.ptr = q.1 →
      spacePages (Function.update dirs q.1 fun _ => none) p = [q.1] := fun p hp => by
    rw [spacePages, hp, Function.update_self, pagesOf, List.filterMap_eq_nil_iff.mpr fun _ _ => rfl]
  have hflat : (⟨pgSize, uvmArea, q.1⟩ :: w.live).flatMap
      (spacePages (Function.update dirs q.1 fun _ => none)) =
      q.1 :: w.live.flatMap (spacePages dirs) := by
    rw [List.flatMap_cons, hself _ rfl, List.flatMap_congr hpages]
    rfl
  rw [hkpt]
  refine ⟨Function.update dirs q.1 fun _ => none,
    ⟨hkpt, ?_, h.unmapped, ?_, ?_, ?_, ?_, ?_, ?_, ?_⟩⟩
  · exact h.kernel.congr (fun d hd => mem_allEntries.mp hd) (hagree _ h.kernel_held h.kernel_page)
  · exact hfr.perm.nodup_iff.mpr (List.nodup_cons.mpr ⟨hfr.new, h.nodup⟩)
  · rw [hflat]
    exact hfr.perm.trans (h.perm.cons q.1)
  · rw [hflat]
    intro p hp
    rcases List.mem_cons.mp hp with rfl | hp
    · exact hfr.page
    · exact h.page p hp
  · exact List.nodup_cons.mpr ⟨fun hm => hold _ hm rfl, h.live⟩
  · intro p hp
    rcases List.mem_cons.mp hp with rfl | hp
    · simp only [Function.update_self]
      refine ⟨fun d hd => ?_, fun _ _ _ ht => absurd ht.symm (Option.some_ne_none _),
        fun _ _ _ _ _ => rfl⟩
      rw [hnew d (userEntries_lt d hd), h.kernel.dir d (mem_allEntries.mpr (userEntries_lt d hd)),
        h.unmapped d hd]
      rfl
    · simp only [Function.update_of_ne (hold p hp)]
      exact (h.space p hp).congr userEntries_lt (hagree _ (h.space_held hp) (h.space_page hp))
  · intro p hp n f hf
    rcases List.mem_cons.mp hp with rfl | hp
    · simp only [Function.update_self] at hf
      cases hf
    · simp only [Function.update_of_ne (hold p hp)] at hf
      exact h.frames p hp n f hf
  · intro p hp d hd hnot
    rcases List.mem_cons.mp hp with rfl | hp
    · exact (hnew d hd).trans (hkernel d hd).symm
    · have hown := hagree _ (h.space_held hp) (h.space_page hp) p.ptr (ptr_mem_spacePages p) d hd
      exact hown.trans ((h.shared p hp d hd hnot).trans (hkernel d hd).symm)

/-! ## `map` -/

theorem preparePde_eq (A : Allocator σ) (upt va : Nat) (s : State σ) :
    preparePde A upt va s = prepare A 7 upt (pdx va) s := rfl

theorem or_frameFlags {pa prot : Nat} (hpa : pa % pgSize = 0) :
    pteP ||| (if prot &&& protWrite ≠ 0 then pteW else 0) ||| pteU ||| pa =
      pa + frameFlags (prot &&& protWrite ≠ 0) := by
  rw [or_flags _ hpa]
  · by_cases h : prot &&& protWrite = 0 <;> simp [h, frameFlags, pteP, pteW, pteU]
  · by_cases h : prot &&& protWrite = 0 <;> simp [h, pteP, pteW, pteU, pgSize]

/-- What `map` does when it returns. -/
theorem map_cases {p : AddressSpace} {va pa prot : Nat} {s : State σ} {r : Nat × State σ}
    (h : map A p va pa prot s = .ok r) :
    ¬uvmArea.Contains va ∧ r = (1, s) ∨
      uvmArea.Contains va ∧ pa % pgSize = 0 ∧ r.1 = 0 ∧
        setLeaf A 7 p.ptr (pdx va) (ptx va) (slot (frameFor pa prot)) s = .ok r.2 := by
  unfold map at h
  by_cases hbad : prot &&& protNone ≠ 0 ∧ prot ≠ protNone
  · rw [if_pos hbad] at h
    cases h
  rw [if_neg hbad] at h
  by_cases halign : va ≠ va / pgSize * pgSize ∨ pa ≠ pa / pgSize * pgSize
  · rw [if_pos halign] at h
    cases h
  rw [if_neg halign] at h
  have hpa : pa % pgSize = 0 := by unfold pgSize at *; omega
  by_cases hin : uvmArea.Contains va
  · rw [if_neg (not_not.mpr hin)] at h
    obtain ⟨s₁, h₁, h⟩ := bind_eq_ok.mp h
    refine .inr ⟨hin, hpa, ?_⟩
    rw [setLeaf, ← preparePde_eq, h₁, ok_bind]
    by_cases hn : prot &&& protNone = 0
    · rw [if_neg (not_not.mpr hn), or_frameFlags hpa] at h
      rw [frameFor, if_neg (not_not.mpr hn)]
      obtain rfl := Except.ok.inj h
      exact ⟨rfl, rfl⟩
    · rw [if_pos hn] at h
      rw [frameFor, if_pos hn]
      obtain rfl := Except.ok.inj h
      exact ⟨rfl, rfl⟩
  · rw [if_pos hin] at h
    obtain rfl := Except.ok.inj h
    exact .inl ⟨hin, rfl⟩

theorem Inv.map (hA : Sound A held) (h : Inv held base kpt kd dirs w) {p : AddressSpace}
    {va pa prot : Nat} (hp : p ∈ w.live) (hva : va < 2 ^ 32)
    (hs : step A w (.map p va pa prot) = .ok w') : ∃ dirs', Inv held base kpt kd dirs' w' := by
  obtain ⟨r, hr, hs⟩ := bind_eq_ok.mp hs
  obtain rfl := Except.ok.inj hs
  rcases map_cases hr with ⟨_, rfl⟩ | ⟨hin, hpa, hzero, hset⟩
  · exact ⟨dirs, h⟩
  have hd := pdx_user hin
  obtain ⟨dirs', new, hch⟩ := setLeaf_changed hA (h.space p hp) userEntries_lt List.nodup_range'
    h.nodup (h.space_held hp) (h.space_nodup hp) (fun x hx => (h.space_page hp x hx).1) (by decide)
    (by decide) hd (ptx_lt va) hset
  rw [pdx_ptx hva] at hch
  have hothers : ∀ q ∈ w.live, q ≠ p → q.ptr ≠ p.ptr := fun q hq hne => h.ptr_ne hp hq hne
  have hpages : ∀ q ∈ w.live, q ≠ p →
      spacePages (Function.update dirs p.ptr dirs') q = spacePages dirs q := fun q hq hne => by
    rw [spacePages, Function.update_of_ne (hothers q hq hne)]
    rfl
  have hself :
      (spacePages (Function.update dirs p.ptr dirs') p).Perm (new ++ spacePages dirs p) := by
    rw [spacePages, Function.update_self]
    exact hch.pages
  have hflat := Lib.flatMap_perm_append h.live hp hself hpages
  have hkern := hch.keeps _ h.kernel_held (fun x hx => (h.kernel_page x hx).1)
    fun x hx => h.not_kernel hp hx
  have hspace : ∀ q ∈ w.live, q ≠ p → Agree w.state.mem r.2.mem (spacePages dirs q) :=
    fun q hq hne =>
    hch.keeps _ (h.space_held hq) (fun x hx => (h.space_page hq x hx).1)
      fun x hx => h.not_other hp hq hne hx
  rw [if_pos hzero]
  refine ⟨Function.update dirs p.ptr dirs',
    ⟨hch.kpt.trans h.root, ?_, h.unmapped, hch.nodup, ?_, ?_,
    h.live, ?_, ?_, ?_⟩⟩
  · exact h.kernel.congr (fun d hd => mem_allEntries.mp hd) hkern
  · refine hch.perm.trans ((h.perm.append_left new).trans ?_)
    rw [← List.append_assoc]
    exact hflat.symm.append_right _
  · intro x hx
    rcases List.mem_append.mp hx with hx | hx
    · rcases List.mem_append.mp (hflat.mem_iff.mp hx) with hx | hx
      · exact hch.page x hx
      · exact h.page x (List.mem_append_left _ hx)
    · exact h.kernel_page x hx
  · intro q hq
    dsimp only
    by_cases hqp : q = p
    · rw [hqp, Function.update_self, Function.update_self]
      refine hch.tree.congr_leaf fun n => ?_
      by_cases hn : n = va / pgSize
      · rw [hn, Function.update_self, Function.update_self]
      · rw [Function.update_of_ne hn, Function.update_of_ne hn]
    · rw [Function.update_of_ne (hothers q hq hqp), Function.update_of_ne (hothers q hq hqp)]
      exact (h.space q hq).congr userEntries_lt (hspace q hq hqp)
  · intro q hq n f hf
    dsimp only at hf
    by_cases hqp : q = p
    · rw [hqp, Function.update_self] at hf
      by_cases hn : n = va / pgSize
      · rw [hn, Function.update_self, frameFor] at hf
        split at hf
        · cases hf
        · obtain rfl := Option.some.inj hf
          exact hpa
      · rw [Function.update_of_ne hn] at hf
        exact h.frames p hp n f hf
    · rw [Function.update_of_ne (hothers q hq hqp)] at hf
      exact h.frames q hq n f hf
  · intro q hq d hlt hnot
    have hkd : r.2.mem (entry kpt d) = w.state.mem (entry kpt d) :=
      hkern kpt List.mem_cons_self d hlt
    by_cases hqp : q = p
    · rw [hqp]
      exact (hch.dir d hlt fun he => hnot (he ▸ hd)).trans
        ((h.shared p hp d hlt hnot).trans hkd.symm)
    · exact (hspace q hq hqp q.ptr (ptr_mem_spacePages q) d hlt).trans
        ((h.shared q hq d hlt hnot).trans hkd.symm)

/-! ## `unprotect` -/

/-- The table for entry `d` of a directory. -/
def tableAt (mem : Mem) (upt d : Nat) : Option Nat :=
  let pde := mem (entry upt d)
  if pde &&& pteP = 0 then none else some (pteAddr pde)

def tablesAt (mem : Mem) (upt : Nat) (ds : List Nat) : List Nat := ds.filterMap (tableAt mem upt)

/-- The pages of an address space, in the order in which they are given back. -/
def ownPages (mem : Mem) (p : AddressSpace) : List Nat := tablesAt mem p.ptr userEntries ++ [p.ptr]

def freeAll (A : Allocator σ) (ps : List Nat) (heap : σ) : σ :=
  ps.foldl (fun heap p => A.pgfree p heap) heap

/-- Every page is held when it is given back. -/
def FreesHeld (A : Allocator σ) (held : σ → List Nat) : List Nat → σ → Prop
  | [], _ => True
  | p :: ps, heap => p ∈ held heap ∧ FreesHeld A held ps (A.pgfree p heap)

theorem freeTables_eq (A : Allocator σ) (upt : Nat) {n d : Nat} (hn : d + n ≤ nrEntries)
    (s : State σ) : freeTables A upt n (d * 2 ^ 22) s =
      { s with heap := freeAll A (tablesAt s.mem upt (List.range' d n)) s.heap } := by
  induction n generalizing d s with
  | zero => rfl
  | succ n ih =>
    have hpdx : pdx (d * 2 ^ 22) = d := by unfold pdx nrEntries at *; omega
    have hnext : d * 2 ^ 22 + 2 ^ 22 = (d + 1) * 2 ^ 22 := by omega
    rw [freeTables, hpdx, hnext, ih (by omega), tablesAt, tablesAt, List.range'_succ]
    by_cases habs : s.mem (entry upt d) &&& pteP = 0
    · have hnone : tableAt s.mem upt d = none := if_pos habs
      rw [if_pos habs, List.filterMap_cons_none hnone]
    · have hsome : tableAt s.mem upt d = some (pteAddr (s.mem (entry upt d))) := if_neg habs
      rw [if_neg habs, List.filterMap_cons_some hsome]
      rfl

/-- `unprotect` gives back the pages of the address space and does nothing else. -/
theorem unprotect_eq (A : Allocator σ) (p : AddressSpace) (s : State σ) :
    unprotect A p s = { s with heap := freeAll A (ownPages s.mem p) s.heap } := by
  have hcount : (uvmArea.stop - uvmArea.start) / 2 ^ 22 = 256 := rfl
  rw [unprotect, hcount, show uvmArea.start = 256 * 2 ^ 22 from rfl,
    freeTables_eq A p.ptr (by decide), pgfree, ownPages, freeAll, freeAll, List.foldl_append]
  rfl

theorem freeAll_held (hA : Sound A held) {ps rest : List Nat} {heap : σ}
    (h : (held heap).Perm (ps ++ rest)) :
    FreesHeld A held ps heap ∧ (held (freeAll A ps heap)).Perm rest := by
  induction ps generalizing heap with
  | nil => exact ⟨trivial, h⟩
  | cons p ps ih =>
    have hp : p ∈ held heap := h.mem_iff.mpr List.mem_cons_self
    have herase := h.erase p
    rw [List.cons_append, List.erase_cons_head] at herase
    obtain ⟨hheld, hperm⟩ := ih ((hA.pgfree heap p hp).trans herase)
    exact ⟨⟨hp, hheld⟩, hperm⟩

theorem Tree.tablesAt_eq {mem : Mem} {root : Nat} {ds : List Nat} {tables : Nat → Option Nat}
    {leaf : Nat → Nat} (h : Tree mem root ds 7 tables leaf)
    (hal : ∀ p ∈ pagesOf root ds tables, p % pgSize = 0) :
    tablesAt mem root ds = ds.filterMap tables := by
  refine List.filterMap_congr fun d hd => ?_
  have hpage : ∀ t, tables d = some t → t % pgSize = 0 := fun t ht => hal t (mem_pagesOf hd ht)
  have habs : dirEntry 7 (tables d) &&& pteP = 0 ↔ tables d = none :=
    dirEntry_absent (by decide) (by decide) hpage
  rw [tableAt, h.dir d hd]
  cases ht : tables d with
  | none => rfl
  | some t =>
    rw [ht] at habs
    rw [if_neg (mt habs.mp (Option.some_ne_none t)), dirEntry, pteAddr_add (by decide) (hpage t ht)]

theorem Inv.ownPages_perm (h : Inv held base kpt kd dirs w) {p : AddressSpace} (hp : p ∈ w.live) :
    (ownPages w.state.mem p).Perm (spacePages dirs p) := by
  rw [ownPages, (h.space p hp).tablesAt_eq fun x hx => (h.space_page hp x hx).1, spacePages,
    pagesOf]
  exact List.perm_append_singleton ..

/-- The pages of `p`, and those of the others. -/
theorem Inv.held_split (h : Inv held base kpt kd dirs w) {p : AddressSpace} (hp : p ∈ w.live) :
    (held w.state.heap).Perm (ownPages w.state.mem p ++
      ((w.live.erase p).flatMap (spacePages dirs) ++ (pagesOf kpt allEntries kd ++ base))) := by
  have hsplit := (Lib.flatMap_perm_erase hp (spacePages dirs)).append_right
    (pagesOf kpt allEntries kd ++ base)
  rw [List.append_assoc] at hsplit
  exact (h.perm.trans hsplit).trans ((h.ownPages_perm hp).symm.append_right _)

theorem Inv.unprotect (hA : Sound A held) (h : Inv held base kpt kd dirs w) {p : AddressSpace}
    (hp : p ∈ w.live) (hs : step A w (.unprotect p) = .ok w') : Inv held base kpt kd dirs w' := by
  obtain rfl := Except.ok.inj hs
  have hperm := (freeAll_held hA (h.held_split hp)).2
  have hsub : ∀ q ∈ w.live.erase p, q ∈ w.live := fun q hq => List.mem_of_mem_erase hq
  rw [unprotect_eq]
  refine ⟨h.root, h.kernel, h.unmapped, ?_, hperm, ?_, h.live.erase p,
    fun q hq => h.space q (hsub q hq), fun q hq => h.frames q (hsub q hq),
    fun q hq => h.shared q (hsub q hq)⟩
  · have hnd := (h.held_split hp).nodup_iff.mp h.nodup
    exact hperm.nodup_iff.mpr (List.nodup_append.mp hnd).2.1
  · intro x hx
    rcases List.mem_append.mp hx with hx | hx
    · obtain ⟨q, hq, hx⟩ := List.mem_flatMap.mp hx
      exact h.space_page (hsub q hq) x hx
    · exact h.kernel_page x hx

/-! ## What the processor sees -/

theorem Reach.inv (hA : Sound A held) {w₀ : World σ} (hw : Reach A w₀ w)
    (h₀ : Inv held base kpt kd dirs w₀) : ∃ dirs', Inv held base kpt kd dirs' w := by
  induction hw with
  | start => exact ⟨dirs, h₀⟩
  | call c _ hproper hs ih =>
    obtain ⟨dirs', h⟩ := ih
    cases c with
    | protect => exact h.protect hA hs
    | map p va pa prot => exact h.map hA hproper.1 hproper.2.1 hs
    | unprotect p => exact ⟨dirs', h.unprotect hA hproper hs⟩

/-- What the kernel sees: its own memory and that of the devices, where they are. -/
def kernelAccess (va : Nat) : Option Access :=
  if kernelArea.Contains va ∨ mmapArea.start ≤ va then some ⟨va, true, false⟩ else none

/-- What a process sees that was told `mapping` about its pages. -/
def userAccess (mapping : Nat → Option Frame) (va : Nat) : Option Access :=
  if uvmArea.Contains va then
    (mapping (va / pgSize)).map fun f => ⟨f.pa + va % pgSize, f.writable, true⟩
  else kernelAccess va

theorem leafAccess_kernel {va : Nat} (hva : va < 2 ^ 32) :
    leafAccess 3 (kernelLeaf kernelPage (va / pgSize)) va = kernelAccess va := by
  have hpage : kernelPage (va / pgSize) = true ↔ kernelArea.Contains va ∨ mmapArea.start ≤ va := by
    unfold kernelPage Area.Contains kernelArea mmapArea pgSize
    simp only [Bool.or_eq_true, Bool.and_eq_true, decide_eq_true_eq]
    omega
  unfold leafAccess kernelAccess kernelLeaf
  by_cases h : kernelPage (va / pgSize) = true
  · have hal : va / pgSize * pgSize % pgSize = 0 := Nat.mul_mod_left ..
    rw [if_pos h, if_pos (hpage.mp h), pteAddr_add (by decide) hal,
      and_flags (by decide) hal (by decide), and_flags (by decide) hal (by decide),
      and_flags (by decide) hal (by decide), Nat.div_add_mod']
    rfl
  · rw [if_neg h, if_neg (mt hpage.mpr h), if_pos (Nat.zero_and _)]

theorem leafAccess_user {o : Option Frame} (ho : ∀ f, o = some f → f.pa % pgSize = 0) (va : Nat) :
    leafAccess 7 (slot o) va = o.map fun f => ⟨f.pa + va % pgSize, f.writable, true⟩ := by
  unfold leafAccess
  cases o with
  | none => rw [slot, if_pos (Nat.zero_and _)]; rfl
  | some f =>
    obtain ⟨pa, writable⟩ := f
    have hal : pa % pgSize = 0 := ho _ rfl
    have hf : frameFlags writable < pgSize := by cases writable <;> decide
    rw [slot, pteAddr_add hf hal, and_flags hf hal (by decide), and_flags hf hal (by decide),
      and_flags hf hal (by decide)]
    cases writable <;> rfl

/-- In every state the processor sees the kernel's memory where it is, and in an address space
what `map` was last told about each page of the user area. -/
theorem Inv.translate (h : Inv held base kpt kd dirs w) {va : Nat} (hva : va < 2 ^ 32) :
    translate w.state.mem w.state.kpt va = kernelAccess va ∧
      ∀ p ∈ w.live, translate w.state.mem p.ptr va = userAccess (w.mapping p.ptr) va := by
  have hkernel : Vme.translate w.state.mem kpt va = kernelAccess va := by
    rw [translate_tree h.kernel (fun x hx => (h.kernel_page x hx).1) (by decide) (by decide) hva
      (mem_allEntries.mpr (pdx_lt va)), leafAccess_kernel hva]
  refine ⟨h.root ▸ hkernel, fun p hp => ?_⟩
  have hal : ∀ x ∈ spacePages dirs p, x % pgSize = 0 := fun x hx => (h.space_page hp x hx).1
  unfold userAccess
  by_cases hin : uvmArea.Contains va
  · rw [if_pos hin, translate_tree (h.space p hp) hal (by decide) (by decide) hva (pdx_user hin),
      leafAccess_user (h.frames p hp _)]
  · have hnot : pdx va ∉ userEntries := fun hm => hin (contains_of_pdx hva hm)
    rw [if_neg hin, ← hkernel]
    exact translate_congr (hal _ (ptr_mem_spacePages p))
      (h.kernel_page kpt List.mem_cons_self).1 (h.shared p hp _ (pdx_lt va) hnot)

/-! ## An allocator that serves -/

/-- Requests are served while fewer than `n` pages are held. -/
def Serves (A : Allocator σ) (held : σ → List Nat) (n : Nat) : Prop :=
  ∀ h, (held h).length < n → ∃ r, A.pgalloc h = some r

theorem pgalloc_serves {n : Nat} (hserve : Serves A held n) {s : State σ}
    (hroom : (held s.heap).length < n) : ∃ r, pgalloc A s = .ok r := by
  obtain ⟨⟨p, heap⟩, hp⟩ := hserve s.heap hroom
  exact ⟨_, by rw [pgalloc, hp]⟩

theorem setLeaf_serves {n : Nat} (hserve : Serves A held n) {s : State σ}
    (hroom : (held s.heap).length < n) (flags root d i v : Nat) :
    ∃ s', setLeaf A flags root d i v s = .ok s' := by
  unfold setLeaf prepare
  by_cases habs : s.mem (entry root d) &&& pteP = 0
  · obtain ⟨r, hr⟩ := pgalloc_serves hserve hroom
    rw [if_pos habs, hr]
    exact ⟨_, rfl⟩
  · rw [if_neg habs]
    exact ⟨_, rfl⟩

theorem length_pagesOf_le (root : Nat) (ds : List Nat) (dirs : Nat → Option Nat) :
    (pagesOf root ds dirs).length ≤ ds.length + 1 :=
  Nat.succ_le_succ (List.length_filterMap_le dirs ds)

/-- The kernel takes a directory and at most a table for each of its entries. -/
theorem Booting.length_le {done : Nat → Bool} {s : State σ} (hb : Booting held base kd done s) :
    (held s.heap).length ≤ 1025 + base.length := by
  have hle := length_pagesOf_le s.kpt allEntries kd
  have hlen : allEntries.length = 1024 := List.length_range
  rw [hb.perm.length_eq, List.length_append]
  omega

theorem mapPhysicalLoop_serves (hA : Sound A held) {n : Nat} (hserve : Serves A held n)
    (hn : 1025 + base.length < n) {p c fuel : Nat} (hfuel : c < fuel) (hc : c < 2 ^ 20)
    (hpc : p + c ≤ 2 ^ 20) {done : Nat → Bool} {s : State σ} (hb : Booting held base kd done s) :
    ∃ s', mapPhysicalLoop A ((p + c) * pgSize % 2 ^ 32) fuel (p * pgSize % 2 ^ 32) s = .ok s' := by
  induction c generalizing p fuel kd done s with
  | zero =>
    obtain ⟨fuel, rfl⟩ : ∃ f, fuel = f + 1 := ⟨fuel - 1, by omega⟩
    rw [mapPhysicalLoop, Nat.add_zero, if_pos rfl]
    exact ⟨s, rfl⟩
  | succ c ih =>
    obtain ⟨fuel, rfl⟩ : ∃ f, fuel = f + 1 := ⟨fuel - 1, by omega⟩
    have hne : p * pgSize % 2 ^ 32 ≠ (p + (c + 1)) * pgSize % 2 ^ 32 := by
      unfold pgSize
      omega
    have hpa : p * pgSize % 2 ^ 32 = p * pgSize := by unfold pgSize; omega
    have hnext : add32 (p * pgSize) pgSize = (p + 1) * pgSize % 2 ^ 32 := by
      unfold add32 pgSize
      omega
    have hroom : (held s.heap).length < n := Nat.lt_of_le_of_lt hb.length_le hn
    obtain ⟨s₁, h₁⟩ := setLeaf_serves hserve hroom 3 s.kpt (pdx (p * pgSize)) (ptx (p * pgSize))
      (3 ||| p * pgSize)
    rw [← mapPhysical_eq hA] at h₁
    obtain ⟨kd₁, hb₁⟩ := mapPhysical_booting hA hb (by omega) h₁
    rw [mapPhysicalLoop, if_neg hne, hpa, h₁, ok_bind, hnext,
      show p + (c + 1) = p + 1 + c by omega]
    exact ih (by omega) (by omega) (by omega) hb₁

/-- With enough pages `vme_init` returns. -/
theorem vmeInit_serves (hA : Sound A held) {n : Nat} (hserve : Serves A held n) (mem : Mem)
    (heap : σ) (hn : 1025 + (held heap).length < n) (hnd : (held heap).Nodup) {a b : Nat}
    (ha : a = 0x20000) (hb : b = 0x10000) : ∃ s, vmeInit A mem heap = .ok s := by
  obtain ⟨r, hr⟩ := pgalloc_serves (s := ⟨mem, heap, 0⟩) hserve
    (show (held heap).length < n by omega)
  have h₀ := (pgalloc_fresh hA hr).booting hnd
  have hbound : 0x20000 < loopBound := by unfold loopBound; norm_num
  obtain ⟨s₁, h₁⟩ := mapPhysicalLoop_serves (p := 0) hA hserve hn (ha.trans_lt hbound) (by omega)
    (by omega) h₀
  obtain ⟨kd₁, hb₁⟩ := mapPhysicalLoop_booting (n := 0) hA (by omega) (by omega) h₀ h₁
  obtain ⟨s₃, h₃⟩ := mapPhysicalLoop_serves (p := 0xf0000) hA hserve hn
    (Nat.lt_trans (by omega) (ha.trans_lt hbound)) (c := b) (by omega) (by omega) hb₁
  refine ⟨s₃, ?_⟩
  have hkernel : kernelArea.stop = (0 + a) * pgSize % 2 ^ 32 := by
    rw [ha]
    norm_num [kernelArea, pgSize]
  have hkernel' : kernelArea.start = 0 * pgSize % 2 ^ 32 := by norm_num [kernelArea, pgSize]
  have hmmap : mmapArea.stop = (0xf0000 + b) * pgSize % 2 ^ 32 := by
    rw [hb]
    norm_num [mmapArea, pgSize]
  have hmmap' : mmapArea.start = 0xf0000 * pgSize % 2 ^ 32 := by norm_num [mmapArea, pgSize]
  rw [vmeInit, hr, ok_bind]
  simp only [areas, mapAreas, if_true, Bool.false_eq_true, if_false, hkernel, hkernel', hmmap,
    hmmap', h₁, h₃, ok_bind]

/-- The pages that can be given away. -/
@[irreducible] def freePages : List Nat := (List.range' 1 0x1ffff).map fun k => k * pgSize

theorem page_of_freePages {p : Nat} (hp : p ∈ freePages) : Page p := by
  unfold freePages at hp
  obtain ⟨k, hk, rfl⟩ := List.mem_map.mp hp
  obtain ⟨-, hlt⟩ := List.mem_range'_1.mp hk
  refine ⟨Nat.mul_mod_left .., Nat.zero_le _, ?_⟩
  unfold pgSize kernelArea
  dsimp only
  omega

theorem freePages_nodup : freePages.Nodup := by
  unfold freePages
  refine List.Nodup.map (fun a b hab => ?_) List.nodup_range'
  exact Nat.eq_of_mul_eq_mul_right (by decide) hab

theorem length_freePages : freePages.length = 0x1ffff := by
  unfold freePages
  rw [List.length_map, List.length_range']

/-- The first page that is free. -/
def lowest : Allocator (List Nat) where
  pgalloc l := (freePages.find? fun p => decide (p ∉ l)).map fun p => (p, p :: l)
  pgfree p l := l.erase p

theorem lowest_sound : Sound lowest id where
  pgalloc l p l' h := by
    obtain ⟨q, hq, heq⟩ := Option.map_eq_some_iff.mp h
    obtain ⟨rfl, rfl⟩ := Prod.mk.inj heq
    have hfree : q ∉ l := by simpa using List.find?_some hq
    exact ⟨hfree, page_of_freePages (List.mem_of_find?_eq_some hq), .refl _⟩
  pgfree l p _ := .refl _

theorem lowest_serves : Serves lowest id 0x1ffff := by
  intro l hl
  obtain ⟨p, hp⟩ : ∃ p, freePages.find? (fun p => decide (p ∉ l)) = some p := by
    refine Option.isSome_iff_exists.mp (List.find?_isSome.mpr ?_)
    by_contra hnone
    push Not at hnone
    have hsub : freePages ⊆ l := fun p hp => by simpa using hnone p hp
    have hle := (freePages_nodup.subperm hsub).length_le
    rw [length_freePages] at hle
    exact absurd hl (not_lt.mpr hle)
  exact ⟨(p, p :: l), congrArg (Option.map fun p => (p, p :: l)) hp⟩

/-- One address space with one page, on top of `vme_init`. -/
theorem exists_mapped (va pa prot : Nat) (hva : uvmArea.Contains va) (hvp : va % pgSize = 0)
    (hpp : pa % pgSize = 0) (hprot : prot &&& protNone = 0) :
    ∃ (s : State (List Nat)) (r : AddressSpace × State (List Nat)) (s' : State (List Nat)),
      vmeInit lowest (fun _ => 7) [] = .ok s ∧ protect lowest s = .ok r ∧
        map lowest r.1 va pa prot r.2 = .ok (0, s') := by
  obtain ⟨s, hs⟩ := vmeInit_serves (a := 0x20000) (b := 0x10000) lowest_sound lowest_serves
    (fun _ => 7) [] (by norm_num) List.nodup_nil rfl rfl
  obtain ⟨kd, hb⟩ := vmeInit_booting lowest_sound List.nodup_nil hs
  have hlen : s.heap.length ≤ 1025 := hb.length_le
  obtain ⟨q, hq⟩ := pgalloc_serves lowest_serves (s := s) (Nat.lt_of_le_of_lt hlen (by norm_num))
  have hprotect : protect lowest s =
      .ok (⟨pgSize, uvmArea, q.1⟩, { q.2 with mem := copyPage q.2.kpt q.1 q.2.mem }) := by
    rw [protect, hq]
    rfl
  have hheld := (pgalloc_fresh lowest_sound hq).perm.length_eq
  have hroom : q.2.heap.length < 0x1ffff := by
    rw [id, id, List.length_cons] at hheld
    omega
  obtain ⟨s', hset⟩ := setLeaf_serves lowest_serves
    (s := { q.2 with mem := copyPage q.2.kpt q.1 q.2.mem }) hroom 7 q.1 (pdx va) (ptx va)
    (slot (frameFor pa prot))
  refine ⟨s, _, s', hs, hprotect, ?_⟩
  have hv : va = va / pgSize * pgSize := by unfold pgSize at *; omega
  have hp : pa = pa / pgSize * pgSize := by unfold pgSize at *; omega
  rw [setLeaf, frameFor, if_neg (not_not.mpr hprot)] at hset
  obtain ⟨s₁, h₁, hset⟩ := bind_eq_ok.mp hset
  obtain rfl := Except.ok.inj hset
  rw [map, if_neg (fun h => h.1 hprot), if_neg (not_or.mpr ⟨not_not.mpr hv, not_not.mpr hp⟩),
    if_neg (not_not.mpr hva), preparePde_eq, h₁, ok_bind, if_neg (not_not.mpr hprot),
    or_frameFlags hpp]
  rfl

theorem reach_mapped {s s' : State σ} {r : AddressSpace × State σ} {va pa prot : Nat}
    (hva : va < 2 ^ 32) (hpa : pa < 2 ^ 32) (hr : protect A s = .ok r)
    (hmap : map A r.1 va pa prot r.2 = .ok (0, s')) :
    ∃ w : World σ, Reach A (World.start s) w ∧ w.state = s' ∧ w.live = [r.1] ∧
      w.mapping r.1.ptr (va / pgSize) = frameFor pa prot := by
  have hprotect : Reach A (World.start s)
      ⟨r.2, [r.1], Function.update (fun _ _ => none) r.1.ptr fun _ => none⟩ :=
    .call .protect .start trivial (by rw [step, World.start, hr]; rfl)
  refine ⟨_, .call (.map r.1 va pa prot) hprotect ⟨List.mem_cons_self, hva, hpa⟩
    (by rw [step, hmap]; rfl), rfl, rfl, ?_⟩
  dsimp only
  rw [if_pos rfl, Function.update_self, Function.update_self]

/-! ## What a call leaves alone -/

/-- A call changes nothing of what another address space was told. -/
theorem Inv.step_frame (hA : Sound A held) (h : Inv held base kpt kd dirs w) {c : Call}
    (hproper : c.Proper w) (hs : step A w c = .ok w') {q : AddressSpace} (hq : q ∈ w.live)
    (hne : c.space ≠ some q) : q ∈ w'.live ∧ w'.mapping q.ptr = w.mapping q.ptr := by
  cases c with
  | protect =>
    obtain ⟨dirs', h'⟩ := h.protect hA hs
    obtain ⟨r, hr, hs⟩ := bind_eq_ok.mp hs
    obtain rfl := Except.ok.inj hs
    have hnew : q ≠ r.1 := fun he => (List.nodup_cons.mp h'.live).1 (he ▸ hq)
    have hptr : q.ptr ≠ r.1.ptr := h'.ptr_ne List.mem_cons_self (List.mem_cons_of_mem _ hq) hnew
    exact ⟨List.mem_cons_of_mem _ hq, Function.update_of_ne hptr _ _⟩
  | map p va pa prot =>
    obtain ⟨r, hr, hs⟩ := bind_eq_ok.mp hs
    obtain rfl := Except.ok.inj hs
    have hptr : q.ptr ≠ p.ptr := h.ptr_ne hproper.1 hq fun he => hne (congrArg some he.symm)
    refine ⟨hq, ?_⟩
    dsimp only
    split
    · exact Function.update_of_ne hptr _ _
    · rfl
  | unprotect p =>
    obtain rfl := Except.ok.inj hs
    have hqp : q ≠ p := fun he => hne (congrArg some he.symm)
    exact ⟨(List.mem_erase_of_ne hqp).mpr hq, rfl⟩

theorem Inv.ptrs_nodup (h : Inv held base kpt kd dirs w) :
    (w.live.map AddressSpace.ptr).Nodup := by
  refine (List.nodup_map_iff_inj_on h.live).mpr fun p hp q hq he => ?_
  by_contra hne
  exact h.ptr_ne hq hp hne he

/-- After every sequence of calls that begins with `vme_init`: the kernel and the address spaces
see what they should, no two address spaces have the same directory, and a call changes nothing
of what the others see. -/
theorem address_spaces (hA : Sound A held) {mem : Mem} {heap : σ} (hnd : (held heap).Nodup)
    {s : State σ} (hs : vmeInit A mem heap = .ok s) (hw : Reach A (World.start s) w) {va : Nat}
    (hva : va < 2 ^ 32) :
    translate w.state.mem w.state.kpt va = kernelAccess va ∧
      (∀ p ∈ w.live, translate w.state.mem p.ptr va = userAccess (w.mapping p.ptr) va) ∧
      (w.live.map AddressSpace.ptr).Nodup ∧
      ∀ (c : Call) (w' : World σ), c.Proper w → step A w c = .ok w' →
        ∀ q ∈ w.live, c.space ≠ some q →
          q ∈ w'.live ∧ translate w'.state.mem q.ptr va = translate w.state.mem q.ptr va := by
  obtain ⟨kd, hb⟩ := vmeInit_booting hA hnd hs
  have h₀ : Inv held (held heap) s.kpt kd (fun _ _ => none) (World.start s) := Inv.start hb
  obtain ⟨dirs, h⟩ := hw.inv hA h₀
  obtain ⟨hkernel, hspaces⟩ := h.translate hva
  refine ⟨hkernel, hspaces, h.ptrs_nodup, fun c w' hproper hstep q hq hne => ?_⟩
  obtain ⟨dirs', h'⟩ := (hw.call c hproper hstep).inv hA h₀
  obtain ⟨hq', hmapping⟩ := h.step_frame hA hproper hstep hq hne
  refine ⟨hq', ?_⟩
  rw [(h'.translate hva).2 q hq', hmapping, hspaces q hq]

/-- A process with one page of its own, at an address of that page and at one of the kernel. -/
theorem address_spaces_one :
    ∃ (s : State (List Nat)) (w : World (List Nat)) (p : AddressSpace),
      vmeInit lowest (fun _ => 7) [] = .ok s ∧ Reach lowest (World.start s) w ∧ p ∈ w.live ∧
        translate w.state.mem p.ptr 0x40001234 = some ⟨0x5234, true, true⟩ ∧
        translate w.state.mem p.ptr 0x1234 = some ⟨0x1234, true, false⟩ := by
  obtain ⟨s, r, s', hs, hr, hmap⟩ := exists_mapped 0x40001000 0x5000 protWrite (by decide)
    (by decide) (by decide) (by decide)
  obtain ⟨w, hw, -, hlive, hpage⟩ := reach_mapped (by decide) (by decide) hr hmap
  have hp : r.1 ∈ w.live := by rw [hlive]; exact List.mem_cons_self
  have haccess : ∀ va < 2 ^ 32,
      translate w.state.mem r.1.ptr va = userAccess (w.mapping r.1.ptr) va := fun va hva =>
    (address_spaces lowest_sound List.nodup_nil hs hw hva).2.1 r.1 hp
  refine ⟨s, w, r.1, hs, hw, hp, ?_, ?_⟩
  · have hpage' : w.mapping r.1.ptr (0x40001234 / pgSize) = some ⟨0x5000, true⟩ := hpage
    rw [haccess _ (by decide), userAccess, if_pos (by decide), hpage']
    rfl
  · rw [haccess _ (by decide)]
    rfl

/-- Every address space holds at most 257 pages. `unprotect` gives back each of them while it is
held, and the pages that are held are those of the address spaces in use and what was given away
after `vme_init`. -/
theorem pages_returned (hA : Sound A held) {mem : Mem} {heap : σ} (hnd : (held heap).Nodup)
    {s : State σ} (hs : vmeInit A mem heap = .ok s) (hw : Reach A (World.start s) w) :
    (∀ p ∈ w.live, (ownPages w.state.mem p).length ≤ 257 ∧
      FreesHeld A held (ownPages w.state.mem p) w.state.heap ∧
      unprotect A p w.state =
        { w.state with heap := freeAll A (ownPages w.state.mem p) w.state.heap }) ∧
      (held w.state.heap).Perm (w.live.flatMap (ownPages w.state.mem) ++ held s.heap) ∧
      (w.live = [] → (held w.state.heap).Perm (held s.heap)) := by
  obtain ⟨kd, hb⟩ := vmeInit_booting hA hnd hs
  have h₀ : Inv held (held heap) s.kpt kd (fun _ _ => none) (World.start s) := Inv.start hb
  obtain ⟨dirs, h⟩ := hw.inv hA h₀
  have hperm : (held w.state.heap).Perm (w.live.flatMap (ownPages w.state.mem) ++ held s.heap) := by
    have hpages : (w.live.flatMap (ownPages w.state.mem)).Perm (w.live.flatMap (spacePages dirs)) :=
      List.Perm.flatMap_left _ fun p hp => h.ownPages_perm hp
    exact (h.perm.trans (hb.perm.symm.append_left _)).trans (hpages.symm.append_right _)
  refine ⟨fun p hp => ⟨?_, (freeAll_held hA (h.held_split hp)).1, unprotect_eq A p _⟩, hperm,
    fun hl => ?_⟩
  · have hlen : userEntries.length = 256 := List.length_range'
    rw [(h.ownPages_perm hp).length_eq]
    exact (length_pagesOf_le ..).trans (by rw [hlen])
  · rw [hl] at hperm
    exact hperm

/-- A page that is mapped has a table. -/
theorem tableAt_of_translate {mem : Mem} {root va : Nat} (hroot : root % pgSize = 0)
    (h : translate mem root va ≠ none) : tableAt mem root (pdx va) ≠ none := by
  rw [translate, pteAddr_page hroot] at h
  rw [tableAt]
  by_cases habs : mem (entry root (pdx va)) &&& pteP = 0
  · rw [if_pos (.inl habs)] at h
    exact absurd rfl h
  · rw [if_neg habs]
    exact Option.some_ne_none _

/-- An address space is made, gets a page, and is given back with its table and its directory. -/
theorem pages_returned_one :
    ∃ (s : State (List Nat)) (r : AddressSpace × State (List Nat)) (s' : State (List Nat)),
      vmeInit lowest (fun _ => 7) [] = .ok s ∧ protect lowest s = .ok r ∧
        map lowest r.1 0x40001000 0x5000 protWrite r.2 = .ok (0, s') ∧
        2 ≤ (ownPages s'.mem r.1).length ∧
        FreesHeld lowest id (ownPages s'.mem r.1) s'.heap ∧
        (unprotect lowest r.1 s').heap.Perm s.heap := by
  obtain ⟨s, r, s', hs, hr, hmap⟩ := exists_mapped 0x40001000 0x5000 protWrite (by decide)
    (by decide) (by decide) (by decide)
  obtain ⟨w, hw, rfl, hlive, hpage⟩ := reach_mapped (by decide) (by decide) hr hmap
  have hp : r.1 ∈ w.live := by rw [hlive]; exact List.mem_cons_self
  obtain ⟨kd, hb⟩ := vmeInit_booting lowest_sound List.nodup_nil hs
  have h₀ : Inv id [] s.kpt kd (fun _ _ => none) (World.start s) := Inv.start hb
  obtain ⟨dirs, h⟩ := hw.inv lowest_sound h₀
  refine ⟨s, r, w.state, hs, hr, hmap, ?_,
    ((pages_returned lowest_sound List.nodup_nil hs hw).1 r.1 hp).2.1, ?_⟩
  · have hmapped : w.mapping r.1.ptr (0x40001000 / pgSize) = some ⟨0x5000, true⟩ := hpage
    have htranslate : translate w.state.mem r.1.ptr 0x40001000 = some ⟨0x5000, true, true⟩ := by
      rw [(h.translate (by decide)).2 r.1 hp, userAccess, if_pos (by decide), hmapped]
      rfl
    have htable := tableAt_of_translate (h.space_page hp _ (ptr_mem_spacePages r.1)).1
      (htranslate ▸ Option.some_ne_none _)
    obtain ⟨t, ht⟩ := Option.ne_none_iff_exists'.mp htable
    have hmem : t ∈ tablesAt w.state.mem r.1.ptr userEntries :=
      Lib.mem_filterMap_of_eq (pdx_user (by decide)) ht
    rw [ownPages, List.length_append]
    exact Nat.succ_le_succ (List.length_pos_of_mem hmem)
  · have hw' := hw.call (.unprotect r.1) hp rfl
    have hnone : w.live.erase r.1 = [] := by rw [hlive, List.erase_cons_head]
    exact (pages_returned lowest_sound List.nodup_nil hs hw').2.2 hnone

end

end OsWorkbench.Vme
