import OsWorkbench.Kvdb.Refine

/-!
# Puts that fail, and the chains after any calls

`kvdb_put` gives the old entry of the key up before it looks for blocks. A put that
finds too few leaves the map without the key, and the chains as they should be.
-/

namespace OsWorkbench.Kvdb

/-! ## The two ways a put returns -/

/-- With `free` unused blocks, `kvdb_alloc` returns `1` for the value: they are too
few, and they run out before `vec` does. A string of `2 ^ 31` bytes or more can also
have a length that turns negative. -/
def NoRoom (free : Nat) (v : CStr) : Prop :=
  IsInt (toInt v.length + dataLength) ∧
    (blocks (toInt v.length) < 0 ∨ (free : Int) < blocks (toInt v.length) ∧ free ≤ rows)

theorem noRoom_iff {free : Nat} {v : CStr} (hr : need v ≤ rows) :
    NoRoom free v ↔ free < need v := by
  have hmax : v.length ≤ maxLength := by
    unfold need rows maxLength dataLength at hr
    unfold maxLength
    omega
  have hint := isInt_need hr
  unfold NoRoom
  rw [toInt_length hmax, blocks_length]
  simp only [hint, true_and]
  omega

theorem Repr.search_eq_neg_one {db : Db} {m : Store} (h : Repr db m) {k : CStr}
    (hk : m.lookup k = none) : kvdbSearchKey db k = -1 := by
  obtain ⟨E, hE, hp⟩ := h
  exact hE.search_none fun e he =>
    lookup_eq_none.mp hk _ (hp.mem_iff.mp (List.mem_map.mpr ⟨e, he, rfl⟩))

/-- Without room for the value, `kvdb_put` returns `1` and the key is unbound. -/
theorem Repr.put_full {p : Proc} {m : Store} (h : Repr p.db m) (d : Disk) {k v : CStr}
    (hn : NoRoom (datasSize - blocksOf (del k m)) v) :
    ∃ db', kvdbPut p d k v = .ok (1, { p with db := db' }, d) ∧ Repr db' (del k m) ∧
      SameNames p.db db' ∧ (m.lookup k = none → db' = p.db) := by
  obtain ⟨db', hfree, hrep, hnames⟩ := h.freeIfFound k
  refine ⟨db', ?_, hrep, hnames, fun hk => ?_⟩
  · have hun := hrep.length_unused
    rw [show datasSize - blocksOf (del k m) = (unused db'.datas 0).length by omega] at hn
    simp only [kvdbPut]
    rw [hfree, ok_bind, kvdbAlloc_one_iff.mpr ⟨rfl, hn.1, hn.2⟩, ok_bind]
    rfl
  · rw [h.search_eq_neg_one hk] at hfree
    cases hfree
    rfl

/-- A `kvdb_put` that returns had room for everything, or too few blocks. -/
theorem Repr.put_cases {p p' : Proc} {m : Store} (h : Repr p.db m) {d d' : Disk} {k v : CStr}
    {r : Int} (hput : kvdbPut p d k v = .ok (r, p', d')) :
    (r = 0 ∧ k.length < keyLength ∧ need v < rows ∧ Fits (ins k v m)) ∨
      (r = 1 ∧ NoRoom (datasSize - blocksOf (del k m)) v) := by
  obtain ⟨db, hfree, hrep, -⟩ := h.freeIfFound k
  rcases kvdbPut_cases hfree hput with ⟨-, db', halloc⟩ | ⟨rfl, halloc⟩
  · obtain ⟨hk, hr, hf⟩ := hrep.alloc_inv halloc
    obtain ⟨p₁, hput₁, -⟩ := h.put d hk hr hf
    rw [hput] at hput₁
    cases hput₁
    exact .inl ⟨rfl, hk, hr, hf⟩
  · obtain ⟨-, hint, hn⟩ := kvdbAlloc_one_iff.mp halloc
    have hun := hrep.length_unused
    rw [show (unused db.datas 0).length = datasSize - blocksOf (del k m) by omega] at hn
    exact .inr ⟨rfl, hint, hn⟩

/-- Whatever calls were made, as long as they returned, the database represents a
map. -/
theorem Repr.of_calls {p p' : Proc} {m : Store} (h : Repr p.db m) {d d' : Disk} {os : List Op}
    {outs : List Out} (hc : calls p d os = .ok (outs, p', d')) : ∃ m', Repr p'.db m' := by
  induction os generalizing p m d outs with
  | nil =>
    cases hc
    exact ⟨m, h⟩
  | cons o os ih =>
    obtain ⟨⟨out, p₁, d₁⟩, hcall, hc⟩ := bind_eq_ok.mp hc
    obtain ⟨⟨outs', p₂, d₂⟩, hcs, hret⟩ := bind_eq_ok.mp hc
    cases hret
    cases o with
    | put k v =>
      obtain ⟨⟨r, p₃, d₃⟩, hput, hret⟩ := bind_eq_ok.mp hcall
      cases hret
      rcases h.put_cases hput with ⟨rfl, hk, hr, hf⟩ | ⟨rfl, hn⟩
      · obtain ⟨p₄, hput', hrep, -⟩ := h.put d hk hr hf
        rw [hput] at hput'
        cases hput'
        exact ih hrep hcs
      · obtain ⟨db', hput', hrep, -⟩ := h.put_full d hn
        rw [hput] at hput'
        cases hput'
        exact ih hrep hcs
    | get k =>
      obtain ⟨⟨r, p₃, d₃⟩, hget, hret⟩ := bind_eq_ok.mp hcall
      cases hret
      cases hk : m.lookup k with
      | none =>
        rw [h.get_none d hk] at hget
        cases hget
        exact ih h hcs
      | some v =>
        obtain ⟨-, p₄, hget', hrep, -⟩ := h.get_some d hk
        rw [hget] at hget'
        cases hget'
        exact ih hrep hcs

/-! ## A put that cannot be carried out -/

/-- There are too few blocks, also with those of the old value, or no item left, or
the key or the value is too long. -/
def Unfit (m : Store) (k v : CStr) : Prop :=
  datasSize < blocksOf (ins k v m) ∨ (m.lookup k = none ∧ m.length = itemsSize) ∨
    keyLength ≤ k.length ∨ maxLength ≤ v.length

/-- Replaying the log on the snapshot gives the map in memory. -/
def Replays (p : Proc) (d : Disk) : Prop :=
  ∃ snapshot q, d (nameOf p.db.copyname) = some (.image snapshot) ∧
    redoOperation { Proc.zero with db := snapshot } (d.textOf (nameOf p.db.logname)) = .ok q ∧
    ∀ k, logical q.db k = logical p.db k

/-- The put returns `1`, and neither the map nor its agreement with the log changes. -/
def Unharmed (p : Proc) (d : Disk) (k v : CStr) : Prop :=
  ∃ p' d', kvdbPut p d k v = .ok (1, p', d') ∧ (∀ k', logical p'.db k' = logical p.db k') ∧
    (Replays p d → Replays p' d')

theorem Repr.harmed {p : Proc} {m : Store} (h : Repr p.db m) (d : Disk) {k v v₀ : CStr}
    (hk : m.lookup k = some v₀) : ¬Unharmed p d k v := by
  rintro ⟨p', d', hput, hsame, -⟩
  rcases h.put_cases hput with ⟨hr, -⟩ | ⟨-, hn⟩
  · cases hr
  · obtain ⟨db', hput', hrep, -, -⟩ := h.put_full d hn
    rw [hput] at hput'
    cases hput'
    have hk' := hsame k
    rw [hrep.logical_eq, h.logical_eq, lookup_del_self, hk] at hk'
    cases hk'

/-- A put that cannot be carried out does no harm iff the key is new and
`kvdb_alloc` runs out of blocks before it runs out of `vec`. -/
theorem put_unharmed_iff {p : Proc} {m : Store} (h : Repr p.db m) (d : Disk) {k v : CStr}
    (_ : Unfit m k v) :
    Unharmed p d k v ↔ m.lookup k = none ∧ NoRoom (datasSize - blocksOf m) v := by
  constructor
  · intro hun
    have hk : m.lookup k = none := by
      cases hk : m.lookup k with
      | none => rfl
      | some v₀ => exact absurd hun (h.harmed d hk)
    obtain ⟨p', d', hput, -⟩ := hun
    rcases h.put_cases hput with ⟨hr, -⟩ | ⟨-, hn⟩
    · cases hr
    · rw [del_of_lookup_none hk] at hn
      exact ⟨hk, hn⟩
  · rintro ⟨hk, hn⟩
    rw [← del_of_lookup_none hk] at hn
    obtain ⟨db', hput, -, -, hdb⟩ := h.put_full d hn
    obtain rfl := hdb hk
    exact ⟨p, d, hput, fun _ => rfl, id⟩

/-- A value of `n` blocks. -/
def filler (n : Nat) : CStr where
  bytes := List.replicate (dataLength * n) 120
  noNul h := by
    have := List.eq_of_mem_replicate h
    contradiction

theorem need_filler (n : Nat) : need (filler n) = n := by
  have hlen : (filler n).length = dataLength * n := List.length_replicate
  unfold need
  rw [hlen]
  unfold dataLength
  omega

theorem call_put_ok {p p' : Proc} {d d' : Disk} {k v : CStr} {r : Int}
    (h : kvdbPut p d k v = .ok (r, p', d')) : call p d (.put k v) = .ok (.ret r, p', d') := by
  rw [call, h]
  rfl

theorem calls_cons_ok {p p' : Proc} {d d' : Disk} {o : Op} {out : Out} {os : List Op}
    {outs : List Out} {p'' : Proc} {d'' : Disk} (h : call p d o = .ok (out, p', d'))
    (hs : calls p' d' os = .ok (outs, p'', d'')) :
    calls p d (o :: os) = .ok (out :: outs, p'', d'') := by
  rw [calls, h, ok_bind]
  simp only [hs, ok_bind, pure_eq_ok]

/-- A put of a value of 8000 blocks, on a new database. -/
theorem calls_put_large {v : CStr} (hv : need v = 8000) :
    ∃ p d p' d', kvdbOpen .zero (fun _ => none) (.lit "a.db") = .ok (0, p, d) ∧
      calls p d [.put (.lit "b") v] = .ok ([.ret 0], p', d') ∧ Repr p'.db [(.lit "b", v)] := by
  obtain ⟨p, d, hopen, -, hs, hu, -⟩ :=
    kvdbOpen_create (f := .lit "a.db") (d := fun _ => none) ⟨by decide, by decide⟩ rfl rfl
  have hrep : Repr p.db [] := repr_empty hs fun i _ => by rw [hu]; rfl
  have hfits : Fits (ins (.lit "b") v []) := by
    refine ⟨show 1 ≤ itemsSize by decide, show need v + 0 ≤ datasSize from ?_⟩
    rw [hv]
    decide
  obtain ⟨p', hput, hrep', -⟩ := hrep.put d (k := .lit "b") (v := v) (by decide)
    (by rw [hv]; decide) hfits
  exact ⟨p, d, p', _, hopen, calls_cons_ok (call_put_ok hput) rfl, hrep'⟩

/-- Two values of 8000 blocks do not fit. -/
theorem put_unharmed_new_key :
    ∃ v p d p' d', need v = 8000 ∧ kvdbOpen .zero (fun _ => none) (.lit "a.db") = .ok (0, p, d) ∧
      calls p d [.put (.lit "b") v] = .ok ([.ret 0], p', d') ∧ Repr p'.db [(.lit "b", v)] ∧
      Unfit [(.lit "b", v)] (.lit "a") v ∧ Unharmed p' d' (.lit "a") v := by
  obtain ⟨v, hv⟩ : ∃ v, need v = 8000 := ⟨filler 8000, need_filler 8000⟩
  obtain ⟨p, d, p', d', hopen, hcalls, hrep⟩ := calls_put_large hv
  have hblocks : blocksOf [(.lit "b", v)] = 8000 := by
    show need v + 0 = 8000
    rw [hv]
  have hunfit : Unfit [(.lit "b", v)] (.lit "a") v := by
    refine .inl ?_
    show datasSize < need v + (need v + 0)
    rw [hv]
    decide
  refine ⟨v, p, d, p', d', hv, hopen, hcalls, hrep, hunfit,
    (put_unharmed_iff hrep d' hunfit).mpr ⟨rfl, ?_⟩⟩
  rw [noRoom_iff (by rw [hv]; decide), hblocks, hv]
  decide

/-- A put of 8000 blocks over a value of one byte fails, and the old value is gone. -/
theorem not_unharmed_old_key :
    ∃ v p d p' d' p'', need v = 8000 ∧
      kvdbOpen .zero (fun _ => none) (.lit "a.db") = .ok (0, p, d) ∧
      calls p d [.put (.lit "b") v, .put (.lit "a") (.lit "x")] = .ok ([.ret 0, .ret 0], p', d') ∧
      Repr p'.db [(.lit "a", .lit "x"), (.lit "b", v)] ∧
      Unfit [(.lit "a", .lit "x"), (.lit "b", v)] (.lit "a") v ∧
      kvdbPut p' d' (.lit "a") v = .ok (1, p'', d') ∧
      logical p'.db (.lit "a") = some (.lit "x") ∧ logical p''.db (.lit "a") = none ∧
      ¬Unharmed p' d' (.lit "a") v := by
  obtain ⟨v, hv⟩ : ∃ v, need v = 8000 := ⟨filler 8000, need_filler 8000⟩
  obtain ⟨p, d, p₁, d₁, hopen, hcalls, hrep₁⟩ := calls_put_large hv
  have hfits : Fits (ins (.lit "a") (.lit "x") [(.lit "b", v)]) := by
    refine ⟨show 2 ≤ itemsSize by decide,
      show need (.lit "x") + (need v + 0) ≤ datasSize from ?_⟩
    rw [hv]
    decide
  obtain ⟨p', hput, hrep, -⟩ := hrep₁.put d₁ (k := .lit "a") (v := .lit "x") (by decide)
    (by decide) hfits
  have hrep' : Repr p'.db [(.lit "a", .lit "x"), (.lit "b", v)] := hrep
  have hfull : NoRoom
      (datasSize - blocksOf (del (.lit "a") [(.lit "a", .lit "x"), (.lit "b", v)])) v := by
    rw [noRoom_iff (by rw [hv]; decide)]
    show datasSize - (need v + 0) < need v
    rw [hv]
    decide
  obtain ⟨⟨out, p₂, d₂⟩, hcall, hret⟩ := bind_eq_ok.mp hcalls
  cases hret
  have hcalls' : calls p d [.put (.lit "b") v, .put (.lit "a") (.lit "x")] = .ok (_, p', _) :=
    calls_cons_ok hcall (calls_cons_ok (call_put_ok hput) rfl)
  obtain ⟨db', hfail, hdel, -, -⟩ := hrep'.put_full _ hfull
  refine ⟨v, p, d, p', _, _, hv, hopen, hcalls', hrep', ?_, hfail, ?_, ?_, hrep'.harmed _ rfl⟩
  · refine .inl ?_
    show datasSize < need v + (need v + 0)
    rw [hv]
    decide
  · rw [hrep'.logical_eq]
    rfl
  · rw [hdel.logical_eq, lookup_del_self]

/-! ## The chains after any calls -/

/-- `n` steps along `next` from block `x`: the blocks visited, and where this ends. -/
def walk (datas : Nat → Node) : Nat → Int → List Int × Int
  | 0, x => ([], x)
  | n + 1, x =>
    let r := walk datas n (datas x.toNat).next
    (x :: r.1, r.2)

/-- The walk along the chain of item `i`, of as many steps as its value has blocks. -/
def chainOf (db : Db) (i : Nat) : List Int × Int :=
  walk db.datas ((db.items i).size.toNat ⌈/⌉ dataLength) (db.items i).head

/-- The representation invariant, in terms of the arrays. -/
structure Consistent (db : Db) : Prop where
  size : 0 ≤ db.size ∧ db.size ≤ itemsSize
  sizes : ∀ {i : Nat}, i < db.size → 0 ≤ (db.items i).size
  keys : ∀ {i j : Nat}, i < db.size → j < db.size → (db.items i).key = (db.items j).key → i = j
  ends : ∀ {i : Nat}, i < db.size → (chainOf db i).2 = -1
  visits : ∀ {i : Nat}, i < db.size → ∀ x ∈ (chainOf db i).1, 0 ≤ x ∧ x < datasSize
  distinct : ∀ {i : Nat}, i < db.size → (chainOf db i).1.Nodup
  disjoint : ∀ {i j : Nat}, i < db.size → j < db.size → i ≠ j →
    List.Disjoint (chainOf db i).1 (chainOf db j).1
  used : ∀ {x : Nat}, x < datasSize →
    ((db.datas x).used = 1 ↔ ∃ i : Nat, i < db.size ∧ (x : Int) ∈ (chainOf db i).1) ∧
      ((db.datas x).used = 0 ∨ (db.datas x).used = 1)

/-- No call takes a "something error" branch: neither `kvdb_free` nor `kvdb_read` of
an item does, and a `kvdb_put` returns `1` only where there are too few blocks. -/
structure Quiet (p : Proc) : Prop where
  free : ∀ {i : Nat}, i < p.db.size → ∃ db', kvdbFree p.db i = .ok (0, db')
  read : ∀ {i : Nat}, i < p.db.size → ∃ p', kvdbRead p i = .ok (0, p')
  put : ∀ {d d' : Disk} {k v : CStr} {p' : Proc}, v.length < maxLength - dataLength →
    kvdbPut p d k v = .ok (1, p', d') →
    ∃ db, freeIfFound p.db (kvdbSearchKey p.db k) = .ok db ∧
      (unused db.datas 0).length < need v

theorem walk_eq {datas : Nat → Node} {chain : List Nat} (h : Threaded datas chain) :
    walk datas chain.length (headOf chain) = (chain.map Int.ofNat, -1) := by
  induction chain with
  | nil => rfl
  | cons a chain ih =>
    obtain ⟨-, hn, h⟩ := h
    rw [List.length_cons, walk, headOf_cons, Int.toNat_natCast, hn, ih h]
    rfl

theorem Shape.chainOf_eq {db : Db} {E : List Entry} (h : Shape db E) {n : Nat} {e : Entry}
    (hn : E[n]? = some e) : chainOf db n = (e.chain.map Int.ofNat, -1) := by
  have he := List.mem_of_getElem? hn
  have hlen : e.value.length ⌈/⌉ dataLength = e.chain.length := by
    rw [Nat.ceilDiv_eq_add_pred_div, h.length e he]
    rfl
  rw [chainOf, h.item hn]
  simp only [Int.toNat_natCast]
  rw [hlen, walk_eq (h.threaded e he)]

theorem mem_map_ofNat {chain : List Nat} {x : Nat} :
    (x : Int) ∈ chain.map Int.ofNat ↔ x ∈ chain := by
  refine ⟨fun h => ?_, fun h => List.mem_map.mpr ⟨x, h, rfl⟩⟩
  obtain ⟨y, hy, hxy⟩ := List.mem_map.mp h
  rw [show x = y from (Int.ofNat.inj hxy).symm]
  exact hy

theorem Shape.get_of_lt {db : Db} {E : List Entry} (h : Shape db E) {i : Nat} (hi : i < db.size) :
    ∃ e ∈ E, E[i]? = some e := by
  rw [h.size] at hi
  have hlt : i < E.length := by omega
  exact ⟨E[i], List.getElem_mem hlt, List.getElem?_eq_getElem hlt⟩

theorem Shape.lt_of_get {db : Db} {E : List Entry} (h : Shape db E) {i : Nat} {e : Entry}
    (hi : E[i]? = some e) : i < db.size := by
  rw [h.size]
  have := (List.getElem?_eq_some_iff.mp hi).1
  omega

theorem disjoint_of_flatMap_nodup {E : List Entry} (h : (owned E).Nodup) {i j : Nat} {e f : Entry}
    (hi : E[i]? = some e) (hj : E[j]? = some f) (hij : i ≠ j) : List.Disjoint e.chain f.chain := by
  have hp := (List.nodup_flatMap.mp h).2
  obtain ⟨hi', rfl⟩ := List.getElem?_eq_some_iff.mp hi
  obtain ⟨hj', rfl⟩ := List.getElem?_eq_some_iff.mp hj
  rcases Nat.lt_or_gt_of_ne hij with hlt | hlt
  · exact List.pairwise_iff_getElem.mp hp i j hi' hj' hlt
  · exact (List.pairwise_iff_getElem.mp hp j i hj' hi' hlt).symm

theorem Shape.consistent {db : Db} {E : List Entry} (h : Shape db E) : Consistent db where
  size := by
    have := h.fits
    rw [h.size]
    omega
  sizes hi := by
    obtain ⟨e, -, hn⟩ := h.get_of_lt hi
    rw [h.item hn]
    exact Int.natCast_nonneg _
  keys {i j} hi hj hk := by
    obtain ⟨e, -, hn⟩ := h.get_of_lt hi
    obtain ⟨f, -, hm⟩ := h.get_of_lt hj
    rw [h.item hn, h.item hm] at hk
    have hlt : i < (E.map Entry.key).length := by
      rw [List.length_map]
      exact (List.getElem?_eq_some_iff.mp hn).1
    refine (List.getElem?_inj hlt h.keys).mp ?_
    rw [List.getElem?_map, List.getElem?_map, hn, hm]
    exact congrArg some hk
  ends hi := by
    obtain ⟨e, -, hn⟩ := h.get_of_lt hi
    rw [h.chainOf_eq hn]
  visits hi x hx := by
    obtain ⟨e, he, hn⟩ := h.get_of_lt hi
    rw [h.chainOf_eq hn] at hx
    obtain ⟨y, hy, rfl⟩ := List.mem_map.mp hx
    have := (h.threaded e he).lt y hy
    exact ⟨Int.natCast_nonneg y, Int.ofNat_lt.mpr this⟩
  distinct hi := by
    obtain ⟨e, he, hn⟩ := h.get_of_lt hi
    rw [h.chainOf_eq hn]
    exact ((List.nodup_flatMap.mp h.disjoint).1 e he).map fun _ _ => Int.ofNat.inj
  disjoint hi hj hij := by
    obtain ⟨e, he, hn⟩ := h.get_of_lt hi
    obtain ⟨f, hf, hm⟩ := h.get_of_lt hj
    rw [h.chainOf_eq hn, h.chainOf_eq hm]
    intro x hx hy
    obtain ⟨a, ha, rfl⟩ := List.mem_map.mp hx
    exact disjoint_of_flatMap_nodup h.disjoint hn hm hij ha (mem_map_ofNat.mp hy)
  used {x} hx := by
    have howned : x ∈ owned E ↔ ∃ i : Nat, i < db.size ∧ (x : Int) ∈ (chainOf db i).1 := by
      rw [mem_owned]
      constructor
      · rintro ⟨e, he, hxe⟩
        obtain ⟨n, hn⟩ := List.mem_iff_getElem?.mp he
        refine ⟨n, h.lt_of_get hn, ?_⟩
        rw [h.chainOf_eq hn]
        exact mem_map_ofNat.mpr hxe
      · rintro ⟨i, hi, hxi⟩
        obtain ⟨e, he, hn⟩ := h.get_of_lt hi
        rw [h.chainOf_eq hn] at hxi
        exact ⟨e, he, mem_map_ofNat.mp hxi⟩
    rw [h.used x hx, ← howned]
    by_cases ho : x ∈ owned E <;> simp [ho]

theorem Repr.quiet {p : Proc} {m : Store} (h : Repr p.db m) : Quiet p where
  free {i} hi := by
    obtain ⟨E, hE, -⟩ := h
    obtain ⟨e, -, hn⟩ := hE.get_of_lt hi
    obtain ⟨hlt, rfl⟩ := List.getElem?_eq_some_iff.mp hn
    have hsplit : E = E.take i ++ E[i] :: E.drop (i + 1) := by simp
    rw [hsplit] at hE
    obtain ⟨db', E', hfree, -⟩ := hE.free
    rw [List.length_take, min_eq_left hlt.le] at hfree
    exact ⟨db', hfree⟩
  read hi := by
    obtain ⟨E, hE, -⟩ := h
    obtain ⟨e, -, hn⟩ := hE.get_of_lt hi
    exact ⟨_, kvdbRead_ok hE hn⟩
  put {d d' k v p'} hv hput := by
    obtain ⟨db, hfree, hrep, -⟩ := h.freeIfFound k
    refine ⟨db, hfree, ?_⟩
    rcases h.put_cases hput with ⟨hr, -⟩ | ⟨-, hn⟩
    · cases hr
    · rw [noRoom_iff (need_lt_rows.mpr hv.le).le] at hn
      have := hrep.length_unused
      omega

/-- The map after a call, where a put that finds too few blocks takes the key out. -/
def after (m : Store) : Op → Store
  | .put k v => if blocksOf (ins k v m) ≤ datasSize then ins k v m else del k m
  | .get k => del k m

/-- The key and the value are within their bounds. -/
def Op.Short : Op → Prop
  | .put k v => k.length < keyLength ∧ v.length < maxLength - dataLength
  | .get k => k.length < keyLength

/-- Keys and values are within their bounds, and no more keys are live than there
are items. -/
def Bounded : Store → List Op → Prop
  | _, [] => True
  | m, o :: os => o.Short ∧ (after m o).length ≤ itemsSize ∧ Bounded (after m o) os

theorem Repr.call {p : Proc} {m : Store} (h : Repr p.db m) (d : Disk) {o : Op} (hs : o.Short)
    (hl : (after m o).length ≤ itemsSize) :
    ∃ out p' d', call p d o = .ok (out, p', d') ∧ Repr p'.db (after m o) := by
  cases o with
  | put k v =>
    obtain ⟨hk, hv⟩ := hs
    have hr : need v < rows := need_lt_rows.mpr hv.le
    simp only [after] at hl ⊢
    by_cases hb : blocksOf (ins k v m) ≤ datasSize
    · rw [if_pos hb] at hl ⊢
      obtain ⟨p', hput, hrep, -⟩ := h.put d hk hr ⟨hl, hb⟩
      exact ⟨_, p', _, call_put_ok hput, hrep⟩
    · rw [if_neg hb] at hl ⊢
      have hsum : blocksOf (ins k v m) = need v + blocksOf (del k m) := rfl
      obtain ⟨_, -, hdel, -⟩ := h.freeIfFound k
      have hle := hdel.fits.2
      have hn : NoRoom (datasSize - blocksOf (del k m)) v := (noRoom_iff hr.le).mpr (by omega)
      obtain ⟨db', hput, hrep, -⟩ := h.put_full d hn
      exact ⟨_, _, _, call_put_ok hput, hrep⟩
  | get k =>
    simp only [after]
    cases hk : m.lookup k with
    | none =>
      rw [del_of_lookup_none hk]
      exact ⟨.str none, p, d, by rw [Kvdb.call, h.get_none d hk]; rfl, h⟩
    | some v =>
      obtain ⟨-, p', hget, hrep, -⟩ := h.get_some d hk
      exact ⟨.str (some p'.str), p', _, by rw [Kvdb.call, hget]; rfl, hrep⟩

/-- After any calls within the bounds, puts that fail for lack of blocks included,
the keys are distinct, the chains are disjoint and of the right lengths, and `used`
marks exactly their blocks; and no call runs into an inconsistency. -/
theorem calls_consistent {p : Proc} (hs : p.db.size = 0)
    (hu : ∀ i, i < datasSize → (p.db.datas i).used = 0) (d : Disk) {os : List Op}
    (hb : Bounded [] os) :
    ∃ outs p' d', calls p d os = .ok (outs, p', d') ∧ Consistent p'.db ∧ Quiet p' := by
  suffices ∀ {m : Store}, Repr p.db m → Bounded m os →
      ∃ outs p' d', calls p d os = .ok (outs, p', d') ∧ Consistent p'.db ∧ Quiet p' from
    this (repr_empty hs hu) hb
  clear hs hu hb
  induction os generalizing p d with
  | nil =>
    intro m h _
    obtain ⟨E, hE, -⟩ := id h
    exact ⟨[], p, d, rfl, hE.consistent, h.quiet⟩
  | cons o os ih =>
    intro m h hb
    obtain ⟨hs, hl, hb⟩ := hb
    obtain ⟨out, p₁, d₁, hcall, hrep⟩ := h.call d hs hl
    obtain ⟨outs, p', d', hcalls, hc⟩ := ih d₁ hrep hb
    exact ⟨out :: outs, p', d', calls_cons_ok hcall hcalls, hc⟩

/-- A put of 8000 blocks fails where 8000 are in use. -/
theorem calls_consistent_full :
    ∃ v outs p' d', need v = 8000 ∧ datasSize < blocksOf (ins (.lit "c") v [(.lit "b", v)]) ∧
      calls .zero (fun _ => none) [.put (.lit "b") v, .put (.lit "c") v, .get (.lit "b")] =
        .ok (outs, p', d') ∧ Consistent p'.db ∧ Quiet p' := by
  obtain ⟨v, hv⟩ : ∃ v, need v = 8000 := ⟨filler 8000, need_filler 8000⟩
  have hshort : v.length < maxLength - dataLength := by
    have := (lt_need_iff (v := v) (n := 8000)).not.mp (by omega)
    unfold maxLength dataLength at *
    omega
  have hroom : blocksOf (ins (.lit "b") v []) ≤ datasSize := by
    show need v + 0 ≤ datasSize
    rw [hv]
    decide
  have hfull : datasSize < blocksOf (ins (.lit "c") v [(.lit "b", v)]) := by
    show datasSize < need v + (need v + 0)
    rw [hv]
    decide
  have hfirst : after [] (.put (.lit "b") v) = [(.lit "b", v)] := if_pos hroom
  have hsecond : after [(.lit "b", v)] (.put (.lit "c") v) = [(.lit "b", v)] := if_neg hfull.not_ge
  have hb : Bounded [] [.put (.lit "b") v, .put (.lit "c") v, .get (.lit "b")] := by
    refine ⟨⟨by decide, hshort⟩, ?_, ?_⟩
    · rw [hfirst]
      exact show 1 ≤ itemsSize by decide
    · rw [hfirst]
      refine ⟨⟨by decide, hshort⟩, ?_, ?_⟩
      · rw [hsecond]
        exact show 1 ≤ itemsSize by decide
      · rw [hsecond]
        exact ⟨show 1 < keyLength by decide, show 0 ≤ itemsSize by decide, trivial⟩
  obtain ⟨outs, p', d', hcalls, hc⟩ :=
    calls_consistent (p := .zero) rfl (fun _ _ => rfl) (fun _ => none) hb
  exact ⟨v, outs, p', d', hv, hfull, hcalls, hc⟩

end OsWorkbench.Kvdb
