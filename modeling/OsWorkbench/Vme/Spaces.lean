import OsWorkbench.Vme.Tables

/-!
# Address spaces that stay apart

For every allocator that hands out pages which nobody holds: after any sequence of `protect`,
`map` and `unprotect`, the processor sees in each address space what `map` was told about it,
and outside of the user area what the kernel sees. The pages of the tables all belong to one
address space each or to the kernel, and `unprotect` gives back every page it has to.
-/

namespace OsWorkbench.Vme

variable {σ : Type}

/-- What the allocator owes: pages where the kernel reaches them, and each to one owner only;
`held` lists the pages that are given away. -/
structure Sound (A : Allocator σ) (held : σ → List Nat) : Prop where
  pgalloc : ∀ h p h', A.pgalloc h = some (p, h') →
    p ∉ held h ∧ Page p ∧ (held h').Perm (p :: held h)
  pgfree : ∀ h p, p ∈ held h → (held (A.pgfree p h)).Perm ((held h).erase p)

/-- A page that the allocator has just given away. -/
structure Fresh (held : σ → List Nat) (s s' : State σ) (p : Nat) : Prop where
  new : p ∉ held s.heap
  page : Page p
  perm : (held s'.heap).Perm (p :: held s.heap)
  kpt : s'.kpt = s.kpt
  zero : Words s'.mem p fun _ => 0
  rest : ∀ a, Off p a → s'.mem a = s.mem a

section

variable {A : Allocator σ} {held : σ → List Nat}

theorem pgalloc_fresh (hA : Sound A held) {s : State σ} {r : Nat × State σ}
    (h : pgalloc A s = .ok r) : Fresh held s r.2 r.1 := by
  unfold pgalloc at h
  cases hp : A.pgalloc s.heap with
  | none => rw [hp] at h; cases h
  | some q =>
    obtain ⟨p, heap⟩ := q
    rw [hp] at h
    obtain rfl := Except.ok.inj h
    obtain ⟨hnew, hpage, hperm⟩ := hA.pgalloc _ _ _ hp
    obtain ⟨hzero, hrest⟩ := zeroPage_words p s.mem
    exact ⟨hnew, hpage, hperm, rfl, hzero, hrest⟩

/-! ## One word of one tree -/

/-- The table for directory entry `d`, made when there is none. -/
def prepare (A : Allocator σ) (flags root d : Nat) (s : State σ) : Except Fault (State σ) := do
  if s.mem (entry root d) &&& pteP = 0 then
    let r ← pgalloc A s
    return r.2.write (entry root d) (flags ||| r.1)
  else
    return s

/-- A word is stored in the table for `d`. -/
def setLeaf (A : Allocator σ) (flags root d i v : Nat) (s : State σ) : Except Fault (State σ) := do
  let s ← prepare A flags root d s
  return s.write (entry (pteAddr (s.mem (entry root d))) i) v

/-- What storing a word does to its tree and to the rest of the memory; `new` are the pages that
were taken for it. -/
structure Changed (held : σ → List Nat) (root : Nat) (ds : List Nat) (flags : Nat)
    (dirs dirs' : Nat → Option Nat) (leaf : Nat → Nat) (d : Nat) (new : List Nat)
    (s s' : State σ) : Prop where
  tree : Tree s'.mem root ds flags dirs' leaf
  kpt : s'.kpt = s.kpt
  perm : (held s'.heap).Perm (new ++ held s.heap)
  pages : (pagesOf root ds dirs').Perm (new ++ pagesOf root ds dirs)
  page : ∀ t ∈ new, Page t
  nodup : (held s'.heap).Nodup
  only : ∀ e, e ≠ d → dirs' e = dirs e
  dir : ∀ e < nrEntries, e ≠ d → s'.mem (entry root e) = s.mem (entry root e)
  keeps : ∀ ps ⊆ held s.heap, (∀ p ∈ ps, p % pgSize = 0) →
    (∀ p ∈ ps, p ∉ pagesOf root ds dirs) → Agree s.mem s'.mem ps

theorem dirEntry_absent {flags : Nat} {o : Option Nat} (hf : flags < pgSize)
    (hp : flags &&& pteP ≠ 0) (ho : ∀ t, o = some t → t % pgSize = 0) :
    dirEntry flags o &&& pteP = 0 ↔ o = none := by
  cases o with
  | none => exact ⟨fun _ => rfl, fun _ => Nat.zero_and _⟩
  | some t =>
    rw [dirEntry, and_flags hf (ho t rfl) (by decide : pteP < pgSize)]
    exact ⟨fun h => absurd h hp, fun h => absurd h (Option.some_ne_none t)⟩

variable {s s' : State σ} {root : Nat} {ds : List Nat} {flags : Nat} {dirs : Nat → Option Nat}
  {leaf : Nat → Nat} {d : Nat}

theorem prepare_changed (hA : Sound A held) (htree : Tree s.mem root ds flags dirs leaf)
    (hds : ∀ e ∈ ds, e < nrEntries) (hdn : ds.Nodup) (hnd : (held s.heap).Nodup)
    (hown : pagesOf root ds dirs ⊆ held s.heap) (hpn : (pagesOf root ds dirs).Nodup)
    (hal : ∀ p ∈ pagesOf root ds dirs, p % pgSize = 0) (hf : flags < pgSize)
    (hp : flags &&& pteP ≠ 0) (hd : d ∈ ds) (h : prepare A flags root d s = .ok s') :
    ∃ dirs' new, Changed held root ds flags dirs dirs' leaf d new s s' ∧
      ∃ t, dirs' d = some t ∧ ∀ p ∈ held s.heap, p ∉ pagesOf root ds dirs → p ≠ t := by
  have habs : s.mem (entry root d) &&& pteP = 0 ↔ dirs d = none := by
    rw [htree.dir d hd]
    exact dirEntry_absent hf hp fun t ht => hal t (mem_pagesOf hd ht)
  unfold prepare at h
  by_cases hn : dirs d = none
  · rw [if_pos (habs.mpr hn)] at h
    obtain ⟨r, hr, h⟩ := bind_eq_ok.mp h
    obtain rfl := Except.ok.inj h
    have hfr := pgalloc_fresh hA hr
    have hnew : r.1 ∉ pagesOf root ds dirs := fun hm => hfr.new (hown hm)
    have hne : root ≠ r.1 := fun he => hnew (he ▸ List.mem_cons_self)
    have hroot : root % pgSize = 0 := hal root List.mem_cons_self
    rw [or_flags hf hfr.page.1]
    have hkeep : ∀ ps ⊆ held s.heap, (∀ p ∈ ps, p % pgSize = 0) → Agree s.mem r.2.mem ps :=
      fun ps hps hpal => agree_of_off hfr.rest hpal hfr.page.1 fun hm => hfr.new (hps hm)
    have hgrow := (htree.congr hds (hkeep _ hown hal)).grow hds hal (List.nodup_cons.mp hpn).1 hd hn
      hfr.page.1 hnew hfr.zero
    refine ⟨_, [r.1], ⟨hgrow, hfr.kpt, hfr.perm, ?_, ?_, ?_, ?_, ?_, ?_⟩, r.1,
      Function.update_self .., ?_⟩
    · exact ((Lib.filterMap_update_perm hdn hd hn r.1).cons root).trans (List.Perm.swap ..)
    · intro t ht
      rw [List.mem_singleton.mp ht]
      exact hfr.page
    · exact hfr.perm.nodup_iff.mpr (List.nodup_cons.mpr ⟨hfr.new, hnd⟩)
    · exact fun e he => Function.update_of_ne he _ _
    · intro e he hed
      have hent : entry root e ≠ entry root d := by unfold entry; omega
      exact (Function.update_of_ne hent _ _).trans
        (hfr.rest _ (off_entry hroot hfr.page.1 he hne))
    · intro ps hps hpal hdisj
      exact (hkeep ps hps hpal).trans (agree_update hpal hroot (hds d hd)
        fun hm => hdisj root hm List.mem_cons_self)
    · exact fun p hm _ he => hfr.new (he ▸ hm)
  · rw [if_neg (mt habs.mp hn)] at h
    obtain rfl := Except.ok.inj h
    obtain ⟨t, ht⟩ := Option.ne_none_iff_exists'.mp hn
    exact ⟨dirs, [], ⟨htree, rfl, .refl _, .refl _, fun t ht => (nomatch ht), hnd, fun _ _ => rfl,
      fun _ _ _ => rfl, fun _ _ _ _ _ _ _ _ => rfl⟩, t, ht,
      fun p _ hm he => hm (he ▸ mem_pagesOf hd ht)⟩

theorem setLeaf_changed (hA : Sound A held) (htree : Tree s.mem root ds flags dirs leaf)
    (hds : ∀ e ∈ ds, e < nrEntries) (hdn : ds.Nodup) (hnd : (held s.heap).Nodup)
    (hown : pagesOf root ds dirs ⊆ held s.heap) (hpn : (pagesOf root ds dirs).Nodup)
    (hal : ∀ p ∈ pagesOf root ds dirs, p % pgSize = 0) (hf : flags < pgSize)
    (hp : flags &&& pteP ≠ 0) (hd : d ∈ ds) {i v : Nat} (hi : i < nrEntries)
    (h : setLeaf A flags root d i v s = .ok s') :
    ∃ dirs' new, Changed held root ds flags dirs dirs'
      (Function.update leaf (d * nrEntries + i) v) d new s s' := by
  obtain ⟨s₁, h₁, h⟩ := bind_eq_ok.mp h
  obtain rfl := Except.ok.inj h
  obtain ⟨dirs', new, hch, t, ht, hfar⟩ :=
    prepare_changed hA htree hds hdn hnd hown hpn hal hf hp hd h₁
  have hal' : ∀ p ∈ pagesOf root ds dirs', p % pgSize = 0 := fun p hm =>
    (List.mem_append.mp (hch.pages.mem_iff.mp hm)).elim (fun hm => (hch.page p hm).1) (hal p)
  have hpn' : (pagesOf root ds dirs').Nodup := by
    obtain ⟨hnn, _, hdisj⟩ := List.nodup_append.mp (hch.perm.nodup_iff.mp hch.nodup)
    exact hch.pages.nodup_iff.mpr
      (List.nodup_append.mpr ⟨hnn, hpn, fun a ha b hb => hdisj a ha b (hown hb)⟩)
  have htm : t ∈ pagesOf root ds dirs' := mem_pagesOf hd ht
  have htroot : root ≠ t := fun he =>
    (List.nodup_cons.mp hpn').1 (he ▸ Lib.mem_filterMap_of_eq hd ht)
  rw [hch.tree.dir d hd, ht, dirEntry, pteAddr_add hf (hal' t htm)]
  refine ⟨dirs', new, hch.tree.put hds hpn' hal' hd hi ht v, hch.kpt, hch.perm, hch.pages, hch.page,
    hch.nodup, hch.only, fun e he hed => ?_, fun ps hps hpal hdisj => ?_⟩
  · exact (Function.update_of_ne
      (off_entry (hal root List.mem_cons_self) (hal' t htm) he htroot i hi)
      _ _).trans (hch.dir e he hed)
  · exact (hch.keeps ps hps hpal hdisj).trans (agree_update hpal (hal' t htm) hi
      fun hm => hfar t (hps hm) (hdisj t hm) rfl)

/-! ## The tables of the kernel -/

def allEntries : List Nat := List.range nrEntries

theorem mem_allEntries {d : Nat} : d ∈ allEntries ↔ d < nrEntries := List.mem_range

/-- The words for the pages that are mapped where they are. -/
def kernelLeaf (done : Nat → Bool) (n : Nat) : Nat := if done n then n * pgSize + 3 else 0

/-- In `vme_init`, when the pages `done` are mapped. -/
structure Booting (held : σ → List Nat) (base : List Nat) (kd : Nat → Option Nat)
    (done : Nat → Bool) (s : State σ) : Prop where
  tree : Tree s.mem s.kpt allEntries 3 kd (kernelLeaf done)
  perm : (held s.heap).Perm (pagesOf s.kpt allEntries kd ++ base)
  nodup : (held s.heap).Nodup
  page : ∀ p ∈ pagesOf s.kpt allEntries kd, Page p
  covers : ∀ d, kd d ≠ none → ∃ i < nrEntries, done (d * nrEntries + i) = true

theorem mapPhysical_eq (hA : Sound A held) (pa : Nat) (s : State σ) :
    mapPhysical A pa s = setLeaf A 3 s.kpt (pdx pa) (ptx pa) (3 ||| pa) s := by
  unfold mapPhysical setLeaf prepare
  by_cases h : s.mem (entry s.kpt (pdx pa)) &&& pteP = 0
  · rw [if_pos h, if_pos h]
    cases hr : pgalloc A s with
    | error e => rfl
    | ok r =>
      have hfr := pgalloc_fresh hA hr
      rw [ok_bind, ok_bind, hfr.kpt]
      show Except.ok _ = Except.ok (State.write _ (entry (pteAddr (Function.update r.2.mem
        (entry s.kpt (pdx pa)) (3 ||| r.1) (entry s.kpt (pdx pa)))) (ptx pa)) (3 ||| pa))
      have haddr : pteAddr (3 ||| r.1) = r.1 := by
        rw [or_flags (by decide) hfr.page.1, pteAddr_add (by decide) hfr.page.1]
      rw [Function.update_self, haddr]
      rfl
  · rw [if_neg h, if_neg h]
    rfl

theorem mapPhysical_booting (hA : Sound A held) {base : List Nat} {kd : Nat → Option Nat}
    {done : Nat → Bool} (hb : Booting held base kd done s) {n : Nat} (hn : n < 2 ^ 20)
    (h : mapPhysical A (n * pgSize) s = .ok s') :
    ∃ kd', Booting held base kd' (fun m => done m || m == n) s' := by
  rw [mapPhysical_eq hA] at h
  have hpdx : pdx (n * pgSize) = n / nrEntries := by unfold pdx pgSize nrEntries; omega
  have hptx : ptx (n * pgSize) = n % nrEntries := by unfold ptx pgSize nrEntries; omega
  have hdi : n / nrEntries * nrEntries + n % nrEntries = n := Nat.div_add_mod' n nrEntries
  have hd : n / nrEntries < nrEntries := by unfold nrEntries; omega
  rw [hpdx, hptx] at h
  have hown : pagesOf s.kpt allEntries kd ⊆ held s.heap := fun p hp =>
    hb.perm.mem_iff.mpr (List.mem_append_left _ hp)
  have hpn := (List.nodup_append.mp (hb.perm.nodup_iff.mp hb.nodup)).1
  obtain ⟨kd', new, hch⟩ := setLeaf_changed hA hb.tree (fun e he => mem_allEntries.mp he)
    List.nodup_range hb.nodup hown hpn (fun p hp => (hb.page p hp).1) (by decide) (by decide)
    (mem_allEntries.mpr hd) (Nat.mod_lt n (by decide)) h
  rw [hdi] at hch
  have hkpt := hch.kpt
  refine ⟨kd', ?_, ?_, hch.nodup, ?_, ?_⟩
  · rw [hkpt]
    refine hch.tree.congr_leaf fun m => ?_
    by_cases hm : m = n
    · rw [hm, Function.update_self, kernelLeaf, if_pos (by simp),
        or_flags (by decide) (Nat.mul_mod_left n pgSize)]
    · rw [Function.update_of_ne hm, kernelLeaf, kernelLeaf]
      simp [hm]
  · rw [hkpt]
    refine hch.perm.trans ((hb.perm.append_left new).trans ?_)
    rw [← List.append_assoc]
    exact hch.pages.symm.append_right base
  · rw [hkpt]
    intro p hp
    exact (List.mem_append.mp (hch.pages.mem_iff.mp hp)).elim (hch.page p) (hb.page p)
  · intro d hdn
    by_cases hd' : d = n / nrEntries
    · exact ⟨n % nrEntries, Nat.mod_lt n (by decide), by rw [hd', hdi]; simp⟩
    · rw [hch.only d hd'] at hdn
      obtain ⟨i, hi, hdone⟩ := hb.covers d hdn
      exact ⟨i, hi, by rw [hdone, Bool.true_or]⟩

theorem Booting.congr {base : List Nat} {kd : Nat → Option Nat} {done done' : Nat → Bool}
    (hb : Booting held base kd done s) (h : ∀ n, done' n = done n) :
    Booting held base kd done' s := by
  rw [show done' = done from funext h]
  exact hb

/-- The loop over `c` pages from page `n` on. -/
theorem mapPhysicalLoop_booting (hA : Sound A held) {base : List Nat} {n c fuel : Nat}
    (hc : c < 2 ^ 20) (hnc : n + c ≤ 2 ^ 20) {kd : Nat → Option Nat} {done : Nat → Bool}
    (hb : Booting held base kd done s)
    (h : mapPhysicalLoop A ((n + c) * pgSize % 2 ^ 32) fuel (n * pgSize % 2 ^ 32) s = .ok s') :
    ∃ kd',
      Booting held base kd' (fun m => done m || (decide (n ≤ m) && decide (m < n + c))) s' := by
  induction c generalizing n fuel kd done s with
  | zero =>
    cases fuel with
    | zero => cases h
    | succ fuel =>
      rw [mapPhysicalLoop, Nat.add_zero, if_pos rfl] at h
      obtain rfl := Except.ok.inj h
      exact ⟨kd, hb.congr fun m => by simp⟩
  | succ c ih =>
    cases fuel with
    | zero => cases h
    | succ fuel =>
      have hne : n * pgSize % 2 ^ 32 ≠ (n + (c + 1)) * pgSize % 2 ^ 32 := by
        unfold pgSize
        omega
      rw [mapPhysicalLoop, if_neg hne] at h
      obtain ⟨s₁, h₁, h⟩ := bind_eq_ok.mp h
      have hpa : n * pgSize % 2 ^ 32 = n * pgSize := by unfold pgSize; omega
      rw [hpa] at h₁ h
      obtain ⟨kd₁, hb₁⟩ := mapPhysical_booting hA hb (by omega) h₁
      have hnext : add32 (n * pgSize) pgSize = (n + 1) * pgSize % 2 ^ 32 := by
        unfold add32 pgSize
        omega
      rw [hnext, show n + (c + 1) = n + 1 + c by omega] at h
      obtain ⟨kd', hb'⟩ := ih (by omega) (by omega) hb₁ h
      refine ⟨kd', hb'.congr fun m => ?_⟩
      rw [Bool.eq_iff_iff]
      simp only [Bool.or_eq_true, Bool.and_eq_true, decide_eq_true_eq, beq_iff_eq, or_assoc]
      exact or_congr_right (by omega)

/-- The numbers of the pages that are mapped where they are. -/
def kernelPage (n : Nat) : Bool :=
  decide (n < 0x20000) || (decide (0xf0000 ≤ n) && decide (n < 0x100000))

/-- Before the first page is mapped. -/
theorem Fresh.booting {p : Nat} (hfr : Fresh held s s' p) (hnd : (held s.heap).Nodup) :
    Booting held (held s.heap) (fun _ => none) (fun _ => false) { s' with kpt := p } := by
  have hnil : allEntries.filterMap (fun _ => (none : Option Nat)) = [] :=
    List.filterMap_eq_nil_iff.mpr fun _ _ => rfl
  refine ⟨⟨fun d hd => hfr.zero d (mem_allEntries.mp hd), fun _ _ _ ht => (nomatch ht),
    fun _ _ _ _ _ => rfl⟩, ?_, ?_, ?_, fun d hd => absurd rfl hd⟩
  · rw [pagesOf, hnil]
    exact hfr.perm
  · exact hfr.perm.nodup_iff.mpr (List.nodup_cons.mpr ⟨hfr.new, hnd⟩)
  · rw [pagesOf, hnil]
    intro q hq
    rw [List.mem_singleton.mp hq]
    exact hfr.page

theorem vmeInit_booting (hA : Sound A held) {mem : Mem} {heap : σ} (hnd : (held heap).Nodup)
    (h : vmeInit A mem heap = .ok s) : ∃ kd, Booting held (held heap) kd kernelPage s := by
  obtain ⟨r, hr, h⟩ := bind_eq_ok.mp h
  have h₀ := (pgalloc_fresh hA hr).booting hnd
  obtain ⟨s₁, h₁, h⟩ := bind_eq_ok.mp h
  obtain ⟨s₂, h₂, h⟩ := bind_eq_ok.mp h
  obtain rfl := Except.ok.inj h₂
  obtain ⟨s₃, h₃, h⟩ := bind_eq_ok.mp h
  obtain rfl := Except.ok.inj h
  obtain ⟨kd₁, hb₁⟩ :=
    mapPhysicalLoop_booting (n := 0) (c := 0x20000) hA (by decide) (by decide) h₀ h₁
  obtain ⟨kd₃, hb₃⟩ :=
    mapPhysicalLoop_booting (n := 0xf0000) (c := 0x10000) hA (by decide) (by decide) hb₁ h₃
  refine ⟨kd₃, hb₃.congr fun m => ?_⟩
  rw [Bool.eq_iff_iff, kernelPage]
  simp only [Bool.or_eq_true, Bool.and_eq_true, decide_eq_true_eq, Bool.false_eq_true, false_or]
  omega

end

end OsWorkbench.Vme
