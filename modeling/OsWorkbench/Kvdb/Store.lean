import OsWorkbench.Kvdb.Ops

/-!
# The store as a finite map

A finite map is a list of bindings with distinct keys, up to order. `logical`
reads the map off a `kvdb_t`; `Repr` says that a `kvdb_t` represents one.
-/

namespace OsWorkbench.Kvdb

/-- A finite map from keys to values. -/
abbrev Store := List (CStr × CStr)

def del (k : CStr) (m : Store) : Store := m.filter fun b => b.1 != k

def ins (k v : CStr) (m : Store) : Store := (k, v) :: del k m

/-- The number of data blocks that the values take. -/
def blocksOf (m : Store) : Nat := (m.map fun b => need b.2).sum

/-- The map has room in a `kvdb_t`. -/
def Fits (m : Store) : Prop := m.length ≤ itemsSize ∧ blocksOf m ≤ datasSize

/-! ## Bindings -/

section Bindings

variable {m m' : Store} {k k' v : CStr}

theorem mem_del {b : CStr × CStr} : b ∈ del k m ↔ b ∈ m ∧ b.1 ≠ k := by
  simp [del]

theorem lookup_cons_of_ne {b : CStr × CStr} (h : k ≠ b.1) :
    (b :: m : Store).lookup k = m.lookup k := by
  rw [List.lookup_cons, beq_false_of_ne h]

theorem lookup_eq_some (hm : (m.map Prod.fst).Nodup) : m.lookup k = some v ↔ (k, v) ∈ m := by
  induction m with
  | nil => simp
  | cons b m ih =>
    obtain ⟨k', v'⟩ := b
    obtain ⟨hb, hm⟩ := List.nodup_cons.mp hm
    rw [List.mem_cons]
    by_cases hk : k = k'
    · subst hk
      rw [List.lookup_cons_self, Option.some.injEq, Prod.mk.injEq]
      simp only [true_and]
      refine ⟨fun h => .inl h.symm, fun h => h.elim Eq.symm fun hmem => ?_⟩
      exact absurd (List.mem_map.mpr ⟨_, hmem, rfl⟩) hb
    · rw [lookup_cons_of_ne hk, ih hm]
      refine ⟨.inr, fun h => h.elim (fun heq => ?_) id⟩
      exact absurd (congrArg Prod.fst heq) hk

theorem lookup_perm (hm : (m.map Prod.fst).Nodup) (hp : m.Perm m') : m.lookup k = m'.lookup k := by
  have hm' : (m'.map Prod.fst).Nodup := (hp.map _).nodup_iff.mp hm
  refine Option.ext fun v => ?_
  rw [lookup_eq_some hm, lookup_eq_some hm', hp.mem_iff]

/-- A map is determined by its lookups, up to order. -/
theorem perm_of_lookup (hm : (m.map Prod.fst).Nodup) (hm' : (m'.map Prod.fst).Nodup)
    (h : ∀ k, m.lookup k = m'.lookup k) : m.Perm m' := by
  refine (List.perm_ext_iff_of_nodup (List.Nodup.of_map _ hm) (List.Nodup.of_map _ hm')).mpr ?_
  rintro ⟨k, v⟩
  rw [← lookup_eq_some hm, ← lookup_eq_some hm', h k]

theorem lookup_eq_none : m.lookup k = none ↔ ∀ b ∈ m, b.1 ≠ k := by
  rw [List.lookup_eq_none_iff]
  refine forall₂_congr fun b _ => ?_
  rw [bne_iff_ne, ne_comm]

theorem del_of_lookup_none (h : m.lookup k = none) : del k m = m :=
  List.filter_eq_self.mpr fun b hb => by simpa using lookup_eq_none.mp h b hb

theorem nodup_del (hm : (m.map Prod.fst).Nodup) : ((del k m).map Prod.fst).Nodup :=
  hm.sublist (List.filter_sublist.map _)

theorem nodup_ins (hm : (m.map Prod.fst).Nodup) : ((ins k v m).map Prod.fst).Nodup := by
  refine List.nodup_cons.mpr ⟨fun h => ?_, nodup_del hm⟩
  obtain ⟨b, hb, rfl⟩ := List.mem_map.mp h
  exact (mem_del.mp hb).2 rfl

@[simp] theorem lookup_del_self : (del k m).lookup k = none :=
  lookup_eq_none.mpr fun _ hb => (mem_del.mp hb).2

theorem lookup_del_of_ne (h : k' ≠ k) : (del k m).lookup k' = m.lookup k' := by
  induction m with
  | nil => rfl
  | cons b m ih =>
    unfold del at ih ⊢
    by_cases hb : b.1 = k
    · rw [List.filter_cons_of_neg (by simpa using hb), ih, lookup_cons_of_ne (by rw [hb]; exact h)]
    · rw [List.filter_cons_of_pos (by simpa using hb), List.lookup_cons, List.lookup_cons, ih]

@[simp] theorem lookup_ins_self : (ins k v m).lookup k = some v := by
  rw [ins, List.lookup_cons_self]

theorem lookup_ins_of_ne (h : k' ≠ k) : (ins k v m).lookup k' = m.lookup k' := by
  rw [ins, lookup_cons_of_ne h, lookup_del_of_ne h]

theorem del_perm (hp : m.Perm m') : (del k m).Perm (del k m') := hp.filter _

theorem Fits.perm (h : Fits m) (hp : m.Perm m') : Fits m' := by
  refine ⟨by rw [← hp.length_eq]; exact h.1, ?_⟩
  have : blocksOf m' = blocksOf m := ((hp.map _).sum_eq).symm
  rw [this]
  exact h.2

end Bindings

/-! ## The represented map -/

/-- The bytes of `n` blocks along `next`. -/
def chainBytes (datas : Nat → Node) : Nat → Int → List UInt8
  | 0, _ => []
  | n + 1, x =>
    (List.range' 0 dataLength).map (datas x.toNat).data ++
      chainBytes datas n (datas x.toNat).next

/-- The value that the database binds to a key. -/
def logical (db : Db) (k : CStr) : Option CStr :=
  let i := kvdbSearchKey db k
  if i = -1 then none
  else
    let item := db.items i.toNat
    some (CStr.ofBytes
      ((chainBytes db.datas (blocks item.size).toNat item.head).take item.size.toNat))

def storeOf (E : List Entry) : Store := E.map fun e => (e.key, e.value)

/-- The database represents the map. -/
def Repr (db : Db) (m : Store) : Prop := ∃ E, Rep db E ∧ (storeOf E).Perm m

theorem Blocks.nodup_store {datas : Nat → Node} {E : List Entry} (h : Blocks datas E) :
    ((storeOf E).map Prod.fst).Nodup := by
  rw [storeOf, List.map_map]
  exact h.keys

theorem Blocks.blocksOf_eq {datas : Nat → Node} {E : List Entry} (h : Blocks datas E) :
    blocksOf (storeOf E) = (owned E).length := by
  rw [blocksOf, storeOf, List.map_map, owned, List.length_flatMap]
  exact congrArg _ (List.map_congr_left fun e he => (h.length e he).symm)

theorem Repr.nodup {db : Db} {m : Store} (h : Repr db m) : (m.map Prod.fst).Nodup := by
  obtain ⟨E, hE, hp⟩ := h
  exact (hp.map _).nodup_iff.mp hE.nodup_store

theorem Repr.fits {db : Db} {m : Store} (h : Repr db m) : Fits m := by
  obtain ⟨E, hE, hp⟩ := h
  refine Fits.perm ⟨?_, ?_⟩ hp
  · rw [storeOf, List.length_map]
    exact hE.fits
  · have := hE.length_unused
    rw [hE.blocksOf_eq]
    omega

theorem map_get_range' (v : CStr) : (List.range' 0 v.length).map v.get = v.bytes := by
  refine List.ext_getElem (by simp [CStr.length]) (fun i h1 h2 => ?_)
  rw [List.getElem_map, List.getElem_range', Nat.zero_add, Nat.one_mul, CStr.get_of_lt h2]

theorem chainBytes_eq {datas : Nat → Node} {v : CStr} {cnt : Nat} {chain : List Nat}
    (ht : Threaded datas chain) (hs : Stored datas v cnt chain) :
    chainBytes datas chain.length (headOf chain) =
      (List.range' (dataLength * cnt) (dataLength * chain.length)).map v.get := by
  induction chain generalizing cnt with
  | nil => rfl
  | cons a chain ih =>
    obtain ⟨ha, hn, ht⟩ := ht
    obtain ⟨hd, hs⟩ := hs
    have hrow : (List.range' 0 dataLength).map (datas a).data =
        (List.range' (dataLength * cnt) dataLength).map v.get := by
      rw [List.range'_eq_map_range, List.range'_eq_map_range, List.map_map, List.map_map]
      refine List.map_congr_left fun j hj => ?_
      have := hd j (List.mem_range.mp hj)
      simpa using this
    have hsplit : dataLength * (chain.length + 1) = dataLength + dataLength * chain.length := by
      ring
    have hnext : dataLength * (cnt + 1) = dataLength * cnt + 1 * dataLength := by ring
    rw [List.length_cons, chainBytes, headOf_cons, Int.toNat_natCast, hn, ih ht hs, hrow, hsplit,
      ← List.range'_append, List.map_append, hnext]

/-- `logical` reads the represented map. -/
theorem Repr.logical_eq {db : Db} {m : Store} (h : Repr db m) (k : CStr) :
    logical db k = m.lookup k := by
  obtain ⟨E, hE, hp⟩ := h
  rw [← lookup_perm hE.nodup_store hp]
  by_cases hk : ∀ e ∈ E, e.key ≠ k
  · have hnone : (storeOf E).lookup k = none := by
      refine lookup_eq_none.mpr fun b hb => ?_
      obtain ⟨e, he, rfl⟩ := List.mem_map.mp hb
      exact hk e he
    rw [logical, hE.search_none hk, hnone]
    rfl
  · push Not at hk
    obtain ⟨e, he, rfl⟩ := hk
    have hsome : (storeOf E).lookup e.key = some e.value :=
      (lookup_eq_some hE.nodup_store).mpr (List.mem_map.mpr ⟨e, he, rfl⟩)
    obtain ⟨n, hn, rfl⟩ := List.mem_iff_getElem.mp he
    have hitem := List.getElem?_eq_getElem hn
    have hlen := hE.length _ he
    have hle : E[n].value.length ≤ dataLength * E[n].chain.length := by
      by_contra hlt
      rw [not_le, ← lt_need_iff, hlen] at hlt
      exact lt_irrefl _ hlt
    rw [logical, hE.search_some hitem, hsome]
    simp only [Int.toNat_natCast]
    rw [if_neg (by omega), hE.item hitem]
    simp only [blocks_length, Int.toNat_natCast]
    rw [← hlen, chainBytes_eq (hE.threaded _ he) (hE.stored _ he), ← List.map_take, Nat.mul_zero,
      List.take_range'_of_length_ge hle, map_get_range', CStr.ofBytes_bytes]

/-! ## The calls -/

theorem storeOf_perm {E F : List Entry} (h : E.Perm F) : (storeOf E).Perm (storeOf F) := h.map _

theorem del_storeOf {A B : List Entry} {e : Entry}
    (h : (((A ++ e :: B).map Entry.key)).Nodup) :
    del e.key (storeOf (A ++ e :: B)) = storeOf (A ++ B) := by
  have hne : ∀ f ∈ A ++ B, f.key ≠ e.key := by
    intro f hf heq
    have := (List.perm_middle.map Entry.key).nodup_iff.mp h
    exact (List.nodup_cons.mp this).1 (List.mem_map.mpr ⟨f, hf, heq⟩)
  have hkeep : ∀ F : List Entry, (∀ f ∈ F, f.key ≠ e.key) → del e.key (storeOf F) = storeOf F := by
    intro F hF
    refine List.filter_eq_self.mpr fun b hb => ?_
    obtain ⟨f, hf, rfl⟩ := List.mem_map.mp hb
    simpa using hF f hf
  have hA := hkeep A fun f hf => hne f (by simp [hf])
  have hB := hkeep B fun f hf => hne f (by simp [hf])
  unfold storeOf del at *
  rw [List.map_append, List.map_cons, List.filter_append, hA,
    List.filter_cons_of_neg (by simp), hB, List.map_append]

/-- An old entry of the key is given up. -/
theorem Rep.freeIfFound {db : Db} {E : List Entry} (h : Rep db E) (k : CStr) :
    ∃ db' E', freeIfFound db (kvdbSearchKey db k) = .ok db' ∧ Rep db' E' ∧
      (storeOf E').Perm (del k (storeOf E)) ∧ SameNames db db' := by
  by_cases hk : ∀ e ∈ E, e.key ≠ k
  · refine ⟨db, E, ?_, h, ?_, ⟨rfl, rfl, rfl⟩⟩
    · rw [h.search_none hk]
      rfl
    · have : del k (storeOf E) = storeOf E := by
        refine List.filter_eq_self.mpr fun b hb => ?_
        obtain ⟨f, hf, rfl⟩ := List.mem_map.mp hb
        simpa using hk f hf
      rw [this]
  · push Not at hk
    obtain ⟨e, he, rfl⟩ := hk
    obtain ⟨A, B, rfl⟩ := List.append_of_mem he
    obtain ⟨db', E', hfree, hp, hrep, hnames⟩ := h.free
    refine ⟨db', E', ?_, hrep, ?_, hnames⟩
    · rw [h.search_some (n := A.length) (by simp), Kvdb.freeIfFound, if_pos (by omega), hfree]
      rfl
    · rw [del_storeOf h.keys]
      exact storeOf_perm hp

/-- A `kvdb_put` with room for the new map returns `0` and binds the key. -/
theorem Repr.put {p : Proc} {m : Store} (h : Repr p.db m) (d : Disk) {k v : CStr}
    (hk : k.length < keyLength) (hr : need v < rows) (hf : Fits (ins k v m)) :
    ∃ p', kvdbPut p d k v = .ok (0, p', d.append (nameOf p.db.logname) (putRecord k v)) ∧
      Repr p'.db (ins k v m) ∧ SameNames p.db p'.db ∧ p'.readbuf = p.readbuf ∧
      p'.value = p.value := by
  obtain ⟨E, hE, hp⟩ := h
  obtain ⟨db₁, E₁, hfree, hE₁, hp₁, hnames⟩ := hE.freeIfFound k
  have hp₁' : (storeOf E₁).Perm (del k m) := hp₁.trans (del_perm hp)
  have hlen : E₁.length = (del k m).length := by
    rw [← hp₁'.length_eq, storeOf, List.length_map]
  have hblocks : (owned E₁).length = blocksOf (del k m) := by
    rw [← hE₁.blocksOf_eq]
    exact (hp₁'.map _).sum_eq
  obtain ⟨hf1, hf2⟩ := hf
  have hu : need v ≤ (unused db₁.datas 0).length := by
    have := hE₁.length_unused
    rw [ins, blocksOf, List.map_cons, List.sum_cons] at hf2
    change need v + blocksOf (del k m) ≤ datasSize at hf2
    omega
  have hitems : E₁.length < itemsSize := by
    rw [ins, List.length_cons] at hf1
    omega
  have hfresh : ∀ f ∈ E₁, f.key ≠ k := fun f hf =>
    (mem_del.mp (hp₁'.mem_iff.mp (List.mem_map.mpr ⟨f, hf, rfl⟩))).2
  have hmax := length_lt_maxLength hr
  obtain ⟨hshape, hstored⟩ := hE₁.alloc hu hr hitems hk hfresh
  refine ⟨{ p with
    db := { allocDb db₁ v k with
      datas := fill v 0 ((unused db₁.datas 0).take (need v)) (allocDb db₁ v k).datas }
    writebuf := strcpy p.writebuf v }, ?_, ⟨_, hshape.filled hstored, ?_⟩, ?_, rfl, rfl⟩
  · simp only [kvdbPut]
    rw [hfree, ok_bind, toInt_length hmax.le, kvdbAlloc_ok hu hr hE₁.size hitems hk, ok_bind]
    simp only [ne_eq, not_true_eq_false, if_false, copyToWritebuf]
    rw [inBounds_bind hmax, pure_eq_ok, ok_bind, kvdbWrite_ok hshape rfl, ok_bind]
    simp only [not_true_eq_false, if_false, pure_eq_ok, allocDb, hnames.logname]
  · rw [storeOf, List.map_append, List.map_singleton]
    exact (List.perm_append_singleton _ _).trans (hp₁'.cons _)
  · exact hnames.trans ⟨rfl, rfl, rfl⟩

theorem Repr.length_unused {db : Db} {m : Store} (h : Repr db m) :
    (unused db.datas 0).length + blocksOf m = datasSize := by
  obtain ⟨E, hE, hp⟩ := h
  have hsum : blocksOf m = blocksOf (storeOf E) := ((hp.map _).sum_eq).symm
  rw [hsum, hE.blocksOf_eq]
  exact hE.length_unused

theorem Repr.freeIfFound {db : Db} {m : Store} (h : Repr db m) (k : CStr) :
    ∃ db', freeIfFound db (kvdbSearchKey db k) = .ok db' ∧ Repr db' (del k m) ∧
      SameNames db db' := by
  obtain ⟨E, hE, hp⟩ := h
  obtain ⟨db', E', hfree, hE', hp', hn⟩ := hE.freeIfFound k
  exact ⟨db', hfree, ⟨E', hE', hp'.trans (del_perm hp)⟩, hn⟩

theorem Repr.alloc_inv {db db' : Db} {m : Store} {k v : CStr} (h : Repr db (del k m))
    (halloc : kvdbAlloc db v.length k = .ok (0, db')) :
    k.length < keyLength ∧ need v < rows ∧ Fits (ins k v m) := by
  obtain ⟨hu, hr, -, hs, hk⟩ := kvdbAlloc_inv halloc
  refine ⟨hk, hr, ?_, ?_⟩
  · obtain ⟨E, hE, hp⟩ := h
    rw [hE.size] at hs
    rw [ins, List.length_cons, ← hp.length_eq, storeOf, List.length_map]
    omega
  · have := h.length_unused
    rw [ins, blocksOf, List.map_cons, List.sum_cons]
    change need v + blocksOf (del k m) ≤ datasSize
    omega

/-- A `kvdb_put` that returns got as far as `strcpy`, or returned at `kvdb_alloc`. -/
theorem kvdbPut_cases {p p' : Proc} {d d' : Disk} {k v : CStr} {r : Int} {db : Db}
    (hfree : freeIfFound p.db (kvdbSearchKey p.db k) = .ok db)
    (hput : kvdbPut p d k v = .ok (r, p', d')) :
    (v.length < maxLength ∧ ∃ db', kvdbAlloc db v.length k = .ok (0, db')) ∨
      (r = 1 ∧ kvdbAlloc db (toInt v.length) k = .ok (1, db)) := by
  simp only [kvdbPut] at hput
  rw [hfree, ok_bind] at hput
  obtain ⟨⟨r₁, db'⟩, halloc, hret⟩ := bind_eq_ok.mp hput
  by_cases hr : r₁ = 0
  · subst hr
    simp only [ne_eq, not_true_eq_false, if_false] at hret
    obtain ⟨_, hcopy, -⟩ := bind_eq_ok.mp hret
    unfold copyToWritebuf at hcopy
    obtain ⟨_, hlt, -⟩ := bind_eq_ok.mp hcopy
    -- a length that wraps around does not get past `strcpy`
    have hmax : v.length < maxLength := inBounds_eq_ok.mp hlt
    rw [toInt_length hmax.le] at halloc
    exact .inl ⟨hmax, db', halloc⟩
  · obtain rfl : r₁ = 1 := (kvdbAlloc_code halloc).resolve_left hr
    obtain ⟨rfl, -⟩ := kvdbAlloc_one_iff.mp halloc
    rw [if_pos hr] at hret
    cases hret
    exact .inr ⟨rfl, halloc⟩

/-- A `kvdb_put` that returns `0` had room for the new map. -/
theorem Repr.put_inv {p p' : Proc} {m : Store} (h : Repr p.db m) {d d' : Disk} {k v : CStr}
    (hput : kvdbPut p d k v = .ok (0, p', d')) :
    k.length < keyLength ∧ need v < rows ∧ Fits (ins k v m) := by
  obtain ⟨db, hfree, hrep, -⟩ := h.freeIfFound k
  rcases kvdbPut_cases hfree hput with ⟨-, db', halloc⟩ | ⟨hr, -⟩
  · exact hrep.alloc_inv halloc
  · cases hr

theorem Repr.get_none {p : Proc} {m : Store} (h : Repr p.db m) (d : Disk) {k : CStr}
    (hk : m.lookup k = none) : kvdbGet p d k = .ok (false, p, d) := by
  obtain ⟨E, hE, hp⟩ := h
  have hfresh : ∀ e ∈ E, e.key ≠ k := fun e he =>
    lookup_eq_none.mp hk _ (hp.mem_iff.mp (List.mem_map.mpr ⟨e, he, rfl⟩))
  simp only [kvdbGet]
  rw [hE.search_none hfresh, if_pos rfl, pure_eq_ok]

/-- `readbuf` after the blocks of `v` were read into it. -/
def overlay (v : CStr) (readbuf : Nat → UInt8) : Nat → UInt8 :=
  fun q => if q < dataLength * need v then v.get q else readbuf q

theorem kvdbRead_ok {p : Proc} {E : List Entry} (h : Rep p.db E) {n : Nat} {e : Entry}
    (hn : E[n]? = some e) :
    kvdbRead p n = .ok (0, { p with readbuf := overlay e.value p.readbuf }) := by
  have he : e ∈ E := List.mem_of_getElem? hn
  have hlt : n < itemsSize := (List.getElem?_eq_some_iff.mp hn).1.trans_le h.fits
  have hlen := h.length e he
  have hrows := h.rows_lt e he
  unfold kvdbRead
  rw [index_bind hlt, h.item hn]
  simp only [blocks_length, Int.toNat_natCast]
  rw [← hlen, kvdbReadLoop_eq (h.threaded e he) (h.stored e he) (by omega), ok_bind]
  simp only [ne_eq, not_true_eq_false, if_false, pure_eq_ok, Nat.mul_zero, Nat.zero_le, true_and,
    Nat.zero_add, hlen]
  rfl

/-- A `kvdb_get` of a bound key unbinds it, with its value in front of what
`readbuf` held. -/
theorem Repr.get_some {p : Proc} {m : Store} (h : Repr p.db m) (d : Disk) {k v : CStr}
    (hk : m.lookup k = some v) :
    need v < rows ∧
    ∃ p', kvdbGet p d k = .ok (true, p', d.append (nameOf p.db.logname) (getRecord k)) ∧
      Repr p'.db (del k m) ∧ SameNames p.db p'.db ∧ p'.readbuf = overlay v p.readbuf ∧
      p'.value = p.value := by
  have hnd := h.nodup
  obtain ⟨E, hE, hp⟩ := h
  obtain ⟨e, he, heq⟩ := List.mem_map.mp (hp.mem_iff.mpr ((lookup_eq_some hnd).mp hk))
  cases heq
  obtain ⟨A, B, rfl⟩ := List.append_of_mem he
  have hn : (A ++ e :: B)[A.length]? = some e := by simp
  obtain ⟨db', E', hfree, hp', hrep, hnames⟩ := hE.free
  refine ⟨hE.rows_lt e he, { p with db := db', readbuf := overlay e.value p.readbuf }, ?_,
    ⟨E', hrep, ?_⟩, hnames, rfl, rfl⟩
  · simp only [kvdbGet]
    rw [hE.search_some hn, if_neg (by omega), kvdbRead_ok hE hn, ok_bind]
    simp only [ne_eq, not_true_eq_false, if_false]
    rw [hfree, ok_bind]
    simp only [not_true_eq_false, if_false, pure_eq_ok, hnames.logname]
  · refine (storeOf_perm hp').trans ?_
    rw [← del_storeOf hE.keys]
    exact del_perm hp

end OsWorkbench.Kvdb
