import OsWorkbench.Kvdb.Rep

/-!
# What the operations do to the represented entries
-/

namespace OsWorkbench.Kvdb

/-! ## Blocks -/

theorem mem_owned {E : List Entry} {i : Nat} : i ∈ owned E ↔ ∃ e ∈ E, i ∈ e.chain :=
  List.mem_flatMap

theorem Blocks.perm {datas : Nat → Node} {E F : List Entry} (h : Blocks datas E) (hp : E.Perm F) :
    Blocks datas F := by
  have ho : (owned E).Perm (owned F) := hp.flatMap_right _
  constructor
  · exact fun e he => h.threaded e (hp.mem_iff.mpr he)
  · exact fun e he => h.length e (hp.mem_iff.mpr he)
  · exact fun e he => h.rows_lt e (hp.mem_iff.mpr he)
  · exact fun e he => h.key_lt e (hp.mem_iff.mpr he)
  · exact (hp.map _).nodup_iff.mp h.keys
  · exact ho.nodup_iff.mp h.disjoint
  · intro i hi
    rw [h.used i hi]
    simp only [ho.mem_iff]

/-- An entry's blocks are given back. -/
theorem Blocks.clear {datas : Nat → Node} {e : Entry} {E : List Entry} (h : Blocks datas (e :: E)) :
    Blocks (clearUsed datas e.chain) E := by
  have hd : e.chain.Nodup ∧ (owned E).Nodup ∧ List.Disjoint e.chain (owned E) :=
    List.nodup_append'.mp h.disjoint
  constructor
  · intro f hf
    refine (h.threaded f (by simp [hf])).congr (fun i _ => ?_)
    unfold clearUsed
    split <;> rfl
  · exact fun f hf => h.length f (by simp [hf])
  · exact fun f hf => h.rows_lt f (by simp [hf])
  · exact fun f hf => h.key_lt f (by simp [hf])
  · exact (List.nodup_cons.mp h.keys).2
  · exact hd.2.1
  · intro i hi
    have hu := h.used i hi
    have ho : i ∈ owned (e :: E) ↔ i ∈ e.chain ∨ i ∈ owned E := List.mem_append
    unfold clearUsed
    by_cases hc : i ∈ e.chain
    · rw [if_pos hc, if_neg (fun hE => hd.2.2 hc hE)]
    · rw [if_neg hc, hu]
      simp only [ho, hc, false_or]

/-- An entry gets the blocks of a fresh chain. -/
theorem Blocks.chain {datas : Nat → Node} {e : Entry} {E : List Entry} (h : Blocks datas E)
    (hd : e.chain.Nodup) (hlt : ∀ i ∈ e.chain, i < datasSize) (hnew : ∀ i ∈ e.chain, i ∉ owned E)
    (hl : e.chain.length = need e.value) (hr : need e.value < rows) (hk : e.key.length < keyLength)
    (hfresh : ∀ f ∈ E, f.key ≠ e.key) :
    Blocks (kvdbChain datas (e.chain.map Int.ofNat)) (e :: E) := by
  have hsame : ∀ f ∈ E, ∀ i ∈ f.chain,
      kvdbChain datas (e.chain.map Int.ofNat) i = datas i := by
    intro f hf i hi
    exact kvdbChain_of_notMem fun hc => hnew i hc (mem_owned.mpr ⟨f, hf, hi⟩)
  constructor
  · intro f hf
    rcases List.mem_cons.mp hf with rfl | hf
    · exact kvdbChain_threaded hd hlt
    · exact (h.threaded f hf).congr fun i hi => by rw [hsame f hf i hi]
  · exact List.forall_mem_cons.mpr ⟨hl, h.length⟩
  · exact List.forall_mem_cons.mpr ⟨hr, h.rows_lt⟩
  · exact List.forall_mem_cons.mpr ⟨hk, h.key_lt⟩
  · refine List.nodup_cons.mpr ⟨fun hm => ?_, h.keys⟩
    obtain ⟨f, hf, hfe⟩ := List.mem_map.mp hm
    exact hfresh f hf hfe
  · exact List.nodup_append'.mpr ⟨hd, h.disjoint, fun i hi ho => hnew i hi ho⟩
  · intro i hi
    have ho : i ∈ owned (e :: E) ↔ i ∈ e.chain ∨ i ∈ owned E := List.mem_append
    by_cases hc : i ∈ e.chain
    · rw [kvdbChain_used hd hc, if_pos (ho.mpr (.inl hc))]
    · rw [kvdbChain_of_notMem hc, h.used i hi]
      simp only [ho, hc, false_or]

/-! ## Unused blocks -/

/-- The unused blocks from index `k` on, in ascending order. -/
def unused (datas : Nat → Node) (k : Nat) : List Nat :=
  (List.range' k (datasSize - k)).filter fun i => (datas i).used == 0

theorem filter_range'_eq_cons {p : Nat → Bool} {k m i : Nat} {r : List Nat}
    (h : (List.range' k m).filter p = i :: r) :
    k ≤ i ∧ i < k + m ∧ (List.range' (i + 1) (k + m - (i + 1))).filter p = r := by
  induction m generalizing k with
  | zero => simp at h
  | succ m ih =>
    rw [List.range'_succ] at h
    by_cases hk : p k
    · rw [List.filter_cons_of_pos hk] at h
      obtain ⟨rfl, rfl⟩ := List.cons.inj h
      refine ⟨le_refl k, by omega, ?_⟩
      rw [show k + (m + 1) - (k + 1) = m by omega]
    · rw [List.filter_cons_of_neg hk] at h
      obtain ⟨h1, h2, h3⟩ := ih h
      refine ⟨by omega, by omega, ?_⟩
      rw [show k + (m + 1) - (i + 1) = k + 1 + m - (i + 1) by omega]
      exact h3

theorem unused_cons {datas : Nat → Node} {k i : Nat} {r : List Nat}
    (h : unused datas k = i :: r) : unused datas (i + 1) = r := by
  obtain ⟨h1, h2, h3⟩ := filter_range'_eq_cons h
  unfold unused
  rw [show datasSize - (i + 1) = k + (datasSize - k) - (i + 1) by omega]
  exact h3

theorem mem_unused {datas : Nat → Node} {i : Nat} :
    i ∈ unused datas 0 ↔ i < datasSize ∧ (datas i).used = 0 := by
  unfold unused
  simp [List.mem_range']

theorem unused_nodup (datas : Nat → Node) : (unused datas 0).Nodup :=
  List.Nodup.filter _ List.nodup_range'

theorem kvdbGetUnusedIdx_eq (db : Db) (k : Nat) :
    kvdbGetUnusedIdx db k = headOf (unused db.datas k) := by
  unfold kvdbGetUnusedIdx unused
  rw [if_neg (by omega), Int.toNat_natCast, ← List.head?_filter]
  cases (List.range' k (datasSize - k)).filter fun i => (db.datas i).used == 0 <;> rfl

/-- `kvdb_alloc` takes the first unused blocks, or finds too few, as long as their
indexes have room in `vec`. -/
theorem kvdbAllocLoop_eq (db : Db) {n k : Nat} (vec : List Int) (hv : vec.length ≤ rows) :
    kvdbAllocLoop db n ((k : Int) - 1) vec =
      if vec.length + min n (unused db.datas k).length ≤ rows then
        .ok (if n ≤ (unused db.datas k).length then
          some (vec ++ ((unused db.datas k).take n).map Int.ofNat) else none)
      else .error .badAccess := by
  induction n generalizing k vec with
  | zero => simp [kvdbAllocLoop, hv]
  | succ n ih =>
    rw [kvdbAllocLoop, Int.sub_add_cancel, kvdbGetUnusedIdx_eq]
    cases hu : unused db.datas k with
    | nil => simp [hv]
    | cons i r =>
      have hne : headOf (i :: r) ≠ -1 := by
        rw [headOf_cons]
        omega
      rw [if_neg hne]
      rcases Nat.lt_or_ge vec.length rows with hlt | hge
      · have hi : ((i + 1 : Nat) : Int) - 1 = i := by omega
        have hlen : (vec ++ [(i : Int)]).length = vec.length + 1 := by simp
        have ih' := @ih (i + 1) (vec ++ [(i : Int)]) (by omega)
        rw [hi, unused_cons hu, hlen] at ih'
        have hmin : vec.length + 1 + min n r.length = vec.length + min (n + 1) (r.length + 1) := by
          omega
        rw [inBounds_bind hlt, headOf_cons, ih', List.length_cons, hmin]
        simp
      · have hfull : ¬vec.length + min (n + 1) (i :: r).length ≤ rows := by
          rw [List.length_cons]
          omega
        rw [inBounds_neg (by omega), if_neg hfull]
        rfl

theorem kvdbAllocLoop_start (db : Db) (n : Nat) :
    kvdbAllocLoop db n (-1) [] =
      if min n (unused db.datas 0).length ≤ rows then
        .ok (if n ≤ (unused db.datas 0).length then
          some (((unused db.datas 0).take n).map Int.ofNat) else none)
      else .error .badAccess := by
  have h := kvdbAllocLoop_eq db (n := n) (k := 0) [] (Nat.zero_le _)
  rw [List.length_nil, Nat.zero_add] at h
  exact h

/-- The unused blocks are those that no entry owns. -/
theorem Blocks.length_unused {datas : Nat → Node} {E : List Entry} (h : Blocks datas E) :
    (unused datas 0).length + (owned E).length = datasSize := by
  have hp : ((List.range' 0 datasSize).filter fun i => !((datas i).used == 0)).Perm (owned E) := by
    refine (List.perm_ext_iff_of_nodup (List.Nodup.filter _ List.nodup_range')
      h.disjoint).mpr (fun i => ?_)
    simp only [List.mem_filter, List.mem_range'_1, Nat.zero_le, true_and, Nat.zero_add]
    constructor
    · rintro ⟨hi, hu⟩
      by_contra ho
      rw [h.used i hi, if_neg ho] at hu
      simp at hu
    · intro ho
      obtain ⟨e, he, hie⟩ := mem_owned.mp ho
      have hi := (h.threaded e he).lt i hie
      refine ⟨hi, ?_⟩
      rw [h.used i hi, if_pos ho]
      simp
  rw [← hp.length_eq]
  unfold unused
  rw [Nat.sub_zero, ← List.length_append]
  have :=
    (List.filter_append_perm (fun i => (datas i).used == 0) (List.range' 0 datasSize)).length_eq
  simpa using this

theorem Blocks.mem_unused {datas : Nat → Node} {E : List Entry} (h : Blocks datas E) {i : Nat}
    (hi : i ∈ unused datas 0) : i < datasSize ∧ i ∉ owned E := by
  obtain ⟨hlt, hu⟩ := Kvdb.mem_unused.mp hi
  refine ⟨hlt, fun ho => ?_⟩
  rw [h.used i hlt, if_pos ho] at hu
  cases hu

/-! ## Items -/

/-- The names of the three files are the same. -/
structure SameNames (db db' : Db) : Prop where
  filename : db'.filename = db.filename
  copyname : db'.copyname = db.copyname
  logname : db'.logname = db.logname

theorem SameNames.trans {db db' db'' : Db} (h : SameNames db db') (h' : SameNames db' db'') :
    SameNames db db'' :=
  ⟨h'.filename.trans h.filename, h'.copyname.trans h.copyname, h'.logname.trans h.logname⟩

theorem Shape.search_some {db : Db} {E : List Entry} (h : Shape db E) {n : Nat} {e : Entry}
    (hn : E[n]? = some e) : kvdbSearchKey db e.key = n := by
  obtain ⟨hlt, hget⟩ := List.getElem?_eq_some_iff.mp hn
  have hsize : db.size.toNat = E.length := by
    rw [h.size, Int.toNat_natCast]
  unfold kvdbSearchKey
  cases hf : (List.range' 0 db.size.toNat).find? fun i => (db.items i).key == e.key with
  | none =>
    have := List.find?_eq_none.mp hf n (by simp [List.mem_range'_1, hsize, hlt])
    rw [h.item hn] at this
    simp at this
  | some m =>
    have hm : m < E.length := by
      have := List.mem_of_find?_eq_some hf
      rw [List.mem_range'_1, Nat.zero_add, hsize] at this
      exact this.2
    have hkey : (db.items m).key = e.key := by simpa using List.find?_some hf
    rw [h.item (List.getElem?_eq_getElem hm)] at hkey
    have : m = n := by
      refine (List.getElem?_inj (by simpa using hm) h.keys).mp ?_
      rw [List.getElem?_map, List.getElem?_map, hn, List.getElem?_eq_getElem hm]
      exact congrArg some hkey
    rw [this]

theorem Shape.search_none {db : Db} {E : List Entry} (h : Shape db E) {k : CStr}
    (hk : ∀ e ∈ E, e.key ≠ k) : kvdbSearchKey db k = -1 := by
  have hsize : db.size.toNat = E.length := by
    rw [h.size, Int.toNat_natCast]
  unfold kvdbSearchKey
  cases hf : (List.range' 0 db.size.toNat).find? fun i => (db.items i).key == k with
  | none => rfl
  | some m =>
    have hm : m < E.length := by
      have := List.mem_of_find?_eq_some hf
      rw [List.mem_range'_1, Nat.zero_add, hsize] at this
      exact this.2
    have hkey : (db.items m).key = k := by simpa using List.find?_some hf
    rw [h.item (List.getElem?_eq_getElem hm)] at hkey
    exact absurd hkey (hk _ (List.getElem_mem hm))

theorem Rep.free {db : Db} {A B : List Entry} {e : Entry} (h : Rep db (A ++ e :: B)) :
    ∃ db' E', kvdbFree db A.length = .ok (0, db') ∧ E'.Perm (A ++ B) ∧ Rep db' E' ∧
      SameNames db db' := by
  have he : (A ++ e :: B)[A.length]? = some e := by simp
  have hmem : e ∈ A ++ e :: B := by simp
  have hlen : (A ++ e :: B).length = A.length + B.length + 1 := by simp; omega
  have hfits := h.fits
  rw [hlen] at hfits
  have hsize : db.size = (A.length + B.length + 1 : Nat) := by rw [h.size, hlen]
  have hlast : db.size - 1 = (A.length + B.length : Nat) := by rw [hsize]; omega
  have hblocks : Blocks (clearUsed db.datas e.chain) (A ++ B) :=
    (h.toBlocks.perm List.perm_middle).clear
  have hneed : (blocks (e.value.length : Int)).toNat = e.chain.length := by
    rw [blocks_length, Int.toNat_natCast, h.length e hmem]
  have hrun : kvdbFree db A.length = .ok (0, { db with
      datas := clearUsed db.datas e.chain
      items := Function.update db.items A.length (db.items (A.length + B.length))
      size := db.size - 1 }) := by
    unfold kvdbFree
    rw [index_bind (by omega), h.item he]
    simp only [hneed]
    rw [kvdbFreeLoop_eq (h.threaded e hmem), ok_bind]
    simp only [ne_eq, not_true_eq_false, if_false]
    rw [hlast, index_bind (by omega), pure_eq_ok]
  have hstored : ∀ f ∈ A ++ B, Stored (clearUsed db.datas e.chain) f.value 0 f.chain := by
    intro f hf
    refine (h.stored f ?_).congr (fun i _ => ?_)
    · exact (List.mem_append.mp hf).elim (fun hA => by simp [hA]) (fun hB => by simp [hB])
    · unfold clearUsed
      split <;> rfl
  have build : ∀ E' : List Entry, E'.Perm (A ++ B) →
      (∀ {n : Nat} {f : Entry}, E'[n]? = some f →
        Function.update db.items A.length (db.items (A.length + B.length)) n =
          ⟨headOf f.chain, f.value.length, f.key⟩) →
      ∃ db', ∃ E' : List Entry, kvdbFree db A.length = .ok (0, db') ∧ E'.Perm (A ++ B) ∧
        Rep db' E' ∧ SameNames db db' := by
    intro E' hp hitem
    have hE' : E'.length = A.length + B.length := by rw [hp.length_eq, List.length_append]
    refine ⟨_, E', hrun, hp, ⟨⟨hblocks.perm hp.symm, ?_, ?_, hitem⟩, ?_⟩, ⟨rfl, rfl, rfl⟩⟩
    · rw [hlast, hE']
    · rw [hE']
      omega
    · exact fun f hf => hstored f (hp.mem_iff.mp hf)
  -- the last item takes the place of the freed one, unless it is that one
  rcases List.eq_nil_or_concat B with rfl | ⟨B, y, rfl⟩
  · refine build A (by simp) (fun {n f} hn => ?_)
    have hlt : n < A.length := (List.getElem?_eq_some_iff.mp hn).1
    rw [Function.update_of_ne (by omega)]
    refine h.item ?_
    rw [List.getElem?_append_left hlt]
    exact hn
  · refine build (A ++ y :: B) ?_ (fun {n f} hn => ?_)
    · refine List.Perm.append_left A ?_
      rw [List.concat_eq_append]
      exact (List.perm_append_singleton y B).symm
    · rcases lt_trichotomy n A.length with hlt | rfl | hgt
      · rw [Function.update_of_ne (by omega)]
        refine h.item ?_
        rw [List.getElem?_append_left hlt] at hn ⊢
        exact hn
      · rw [List.getElem?_append_right (le_refl _), Nat.sub_self, List.getElem?_cons_zero] at hn
        cases hn
        rw [Function.update_self]
        refine h.item ?_
        simp
      · rw [Function.update_of_ne (by omega)]
        refine h.item ?_
        obtain ⟨m, rfl⟩ := Nat.exists_eq_add_of_lt hgt
        have hm : A.length + m + 1 - A.length = m + 1 := by omega
        rw [List.getElem?_append_right (by omega), hm, List.getElem?_cons_succ] at hn ⊢
        rw [List.concat_eq_append, List.getElem?_append_left (List.getElem?_eq_some_iff.mp hn).1]
        exact hn

/-- The database after a `kvdb_alloc` that finds enough blocks. -/
def allocDb (db : Db) (v key : CStr) : Db :=
  let chain := (unused db.datas 0).take (need v)
  { db with
    datas := kvdbChain db.datas (chain.map Int.ofNat)
    items := Function.update db.items db.size.toNat ⟨headOf chain, v.length, key⟩
    size := db.size + 1 }

theorem isInt_need {v : CStr} (h : need v ≤ rows) : IsInt (v.length + dataLength) := by
  unfold need rows maxLength dataLength at h
  unfold IsInt dataLength
  omega

theorem toInt_length {v : CStr} (h : v.length ≤ maxLength) : toInt v.length = v.length := by
  unfold maxLength at h
  exact toInt_small (by omega)

theorem length_lt_maxLength {v : CStr} (h : need v < rows) : v.length < maxLength := by
  unfold need rows maxLength dataLength at h
  unfold maxLength
  omega

theorem kvdbAlloc_ok {db : Db} {v key : CStr} (hu : need v ≤ (unused db.datas 0).length)
    (hr : need v < rows) {n : Nat} (hn : db.size = n) (hlt : n < itemsSize)
    (hk : key.length < keyLength) : kvdbAlloc db v.length key = .ok (0, allocDb db v key) := by
  have hlen : (((unused db.datas 0).take (need v)).map Int.ofNat).length = need v := by
    rw [List.length_map, List.length_take, min_eq_left hu]
  simp only [kvdbAlloc, blocks_length, Int.toNat_natCast]
  rw [int_eq_ok.mpr ⟨isInt_need hr.le, rfl⟩, ok_bind, kvdbAllocLoop_start,
    if_pos (by omega), if_pos hu, ok_bind]
  simp only [hlen, ne_eq, not_true_eq_false, if_false]
  rw [inBounds_bind hr, hn, index_bind hlt, inBounds_bind hk, pure_eq_ok, allocDb, hn, headD_map,
    Int.toNat_natCast]

theorem kvdbAlloc_code {db db' : Db} {size r : Int} {key : CStr}
    (h : kvdbAlloc db size key = .ok (r, db')) : r = 0 ∨ r = 1 := by
  simp only [kvdbAlloc] at h
  obtain ⟨_, -, h⟩ := bind_eq_ok.mp h
  obtain ⟨o, -, h⟩ := bind_eq_ok.mp h
  cases o with
  | none =>
    cases h
    exact .inr rfl
  | some vec =>
    simp only at h
    split at h
    · cases h
      exact .inr rfl
    · obtain ⟨_, -, h⟩ := bind_eq_ok.mp h
      obtain ⟨_, -, h⟩ := bind_eq_ok.mp h
      obtain ⟨_, -, h⟩ := bind_eq_ok.mp h
      cases h
      exact .inl rfl

/-- `kvdb_alloc` returns `1` iff it finds too few blocks before `vec` is full, or is
given a size below `-DATA_LENGTH`, as the length of a string wraps to; it then has
changed nothing. -/
theorem kvdbAlloc_one_iff {db db' : Db} {size : Int} {key : CStr} :
    kvdbAlloc db size key = .ok (1, db') ↔
      db' = db ∧ IsInt (size + dataLength) ∧ (blocks size < 0 ∨
        ((unused db.datas 0).length : Int) < blocks size ∧
          (unused db.datas 0).length ≤ rows) := by
  simp only [kvdbAlloc]
  by_cases hint : IsInt (size + dataLength)
  · rw [int_eq_ok.mpr ⟨hint, rfl⟩, ok_bind, kvdbAllocLoop_start]
    by_cases hrow : min (blocks size).toNat (unused db.datas 0).length ≤ rows
    · rw [if_pos hrow, ok_bind]
      by_cases hle : (blocks size).toNat ≤ (unused db.datas 0).length
      · rw [if_pos hle]
        simp only [List.length_map, List.length_take, min_eq_left hle]
        by_cases hne : ((blocks size).toNat : Int) ≠ blocks size
        · rw [if_pos hne, pure_eq_ok]
          simp only [Except.ok.injEq, Prod.mk.injEq, true_and, hint]
          rw [eq_comm, and_iff_left (.inl (by omega))]
        · rw [if_neg hne]
          refine iff_of_false (fun h => ?_) (fun h => by omega)
          obtain ⟨_, -, h⟩ := bind_eq_ok.mp h
          obtain ⟨_, -, h⟩ := bind_eq_ok.mp h
          obtain ⟨_, -, h⟩ := bind_eq_ok.mp h
          cases h
      · rw [if_neg hle]
        simp only [pure_eq_ok, Except.ok.injEq, Prod.mk.injEq, true_and, hint]
        rw [eq_comm, and_iff_left (.inr (by omega))]
    · rw [if_neg hrow]
      refine iff_of_false (fun h => by cases h) (fun h => by omega)
  · rw [int, if_neg hint]
    exact iff_of_false (fun h => by cases h) (fun h => hint h.2.1)

/-- A `kvdb_alloc` that returns `0` had room for the blocks, the item and the key. -/
theorem kvdbAlloc_inv {db db' : Db} {v key : CStr}
    (h : kvdbAlloc db v.length key = .ok (0, db')) :
    need v ≤ (unused db.datas 0).length ∧ need v < rows ∧ 0 ≤ db.size ∧ db.size < itemsSize ∧
      key.length < keyLength := by
  simp only [kvdbAlloc, blocks_length, Int.toNat_natCast] at h
  obtain ⟨_, -, h⟩ := bind_eq_ok.mp h
  obtain ⟨o, ho, h⟩ := bind_eq_ok.mp h
  cases o with
  | none => cases h
  | some vec =>
    simp only at h
    by_cases hne : (vec.length : Int) ≠ need v
    · rw [if_pos hne] at h
      cases h
    · have hlen : vec.length = need v := by
        push Not at hne
        exact_mod_cast hne
      rw [if_neg hne, hlen] at h
      obtain ⟨_, hr, h⟩ := bind_eq_ok.mp h
      obtain ⟨i, hi, h⟩ := bind_eq_ok.mp h
      obtain ⟨_, hk, -⟩ := bind_eq_ok.mp h
      have hr' := inBounds_eq_ok.mp hr
      have hu : need v ≤ (unused db.datas 0).length := by
        by_contra hu
        rw [kvdbAllocLoop_start, if_pos (by omega), if_neg hu] at ho
        cases ho
      unfold index at hi
      split at hi
      · next hb => exact ⟨hu, hr', hb.1, hb.2, inBounds_eq_ok.mp hk⟩
      · cases hi

theorem Rep.alloc {db : Db} {E : List Entry} (h : Rep db E) {v key : CStr}
    (hu : need v ≤ (unused db.datas 0).length) (hr : need v < rows) (hlt : E.length < itemsSize)
    (hk : key.length < keyLength) (hfresh : ∀ f ∈ E, f.key ≠ key) :
    let chain := (unused db.datas 0).take (need v)
    Shape (allocDb db v key) (E ++ [⟨key, v, chain⟩]) ∧
      ∀ e ∈ E, Stored (allocDb db v key).datas e.value 0 e.chain := by
  intro chain
  have hsub : ∀ i ∈ chain, i < datasSize ∧ i ∉ owned E := fun i hi =>
    h.mem_unused (List.mem_of_mem_take hi)
  have hlen : chain.length = need v := by rw [List.length_take, min_eq_left hu]
  have hblocks : Blocks (kvdbChain db.datas (chain.map Int.ofNat)) (⟨key, v, chain⟩ :: E) :=
    h.toBlocks.chain (e := ⟨key, v, chain⟩) ((unused_nodup _).sublist (List.take_sublist _ _))
      (fun i hi => (hsub i hi).1) (fun i hi => (hsub i hi).2) hlen hr hk hfresh
  refine ⟨⟨hblocks.perm (List.perm_append_singleton _ _).symm, ?_, ?_, fun {n f} hn => ?_⟩,
    fun e he => ?_⟩
  · change db.size + 1 = _
    rw [List.length_append, List.length_singleton, h.size]
    omega
  · rw [List.length_append, List.length_singleton]
    omega
  · have hsize : db.size.toNat = E.length := by rw [h.size, Int.toNat_natCast]
    change Function.update db.items db.size.toNat ⟨headOf chain, v.length, key⟩ n = _
    rw [hsize]
    rcases Nat.lt_or_ge n E.length with hlt' | hge
    · rw [Function.update_of_ne (by omega)]
      rw [List.getElem?_append_left hlt'] at hn
      exact h.item hn
    · obtain ⟨hn', _⟩ := List.getElem?_eq_some_iff.mp hn
      rw [List.length_append, List.length_singleton] at hn'
      obtain rfl : n = E.length := by omega
      rw [List.getElem?_append_right (le_refl _), Nat.sub_self, List.getElem?_cons_zero] at hn
      cases hn
      rw [Function.update_self]
  · refine (h.stored e he).congr (fun i _ => ?_)
    exact kvdbChain_data i

theorem kvdbWrite_ok {p : Proc} {E : List Entry} {e : Entry} (h : Shape p.db (E ++ [e]))
    {w : Nat → UInt8} (hw : p.writebuf = strcpy w e.value) :
    kvdbWrite p (p.db.size - 1) =
      .ok (0, { p with db := { p.db with datas := fill e.value 0 e.chain p.db.datas } }) := by
  have hmem : e ∈ E ++ [e] := by simp
  have hlast : p.db.size - 1 = (E.length : Nat) := by
    rw [h.size, List.length_append, List.length_singleton]
    omega
  have hfits := h.fits
  rw [List.length_append, List.length_singleton] at hfits
  have hitem : p.db.items E.length = ⟨headOf e.chain, e.value.length, e.key⟩ :=
    h.item (by simp)
  have hlen := h.length e hmem
  have hrows := h.rows_lt e hmem
  unfold kvdbWrite
  rw [hlast, index_bind (by omega), hitem]
  simp only [blocks_length, Int.toNat_natCast]
  rw [hw, kvdbWriteLoop_strcpy _ (by omega), ← hlen,
    kvdbWriteLoop_eq (h.threaded e hmem) (by omega), ok_bind]
  simp only [ne_eq, not_true_eq_false, if_false, pure_eq_ok]

theorem Shape.filled {db : Db} {E : List Entry} {e : Entry} (h : Shape db (E ++ [e]))
    (hs : ∀ f ∈ E, Stored db.datas f.value 0 f.chain) :
    Rep { db with datas := fill e.value 0 e.chain db.datas } (E ++ [e]) := by
  have hd : (owned E).Nodup ∧ e.chain.Nodup ∧ List.Disjoint (owned E) e.chain := by
    have := h.disjoint
    rw [owned, List.flatMap_append, List.flatMap_singleton] at this
    exact List.nodup_append'.mp this
  refine ⟨⟨⟨?_, h.length, h.rows_lt, h.key_lt, h.keys, h.disjoint, ?_⟩, h.size, h.fits, h.item⟩, ?_⟩
  · exact fun f hf => (h.threaded f hf).congr fun i _ => (fill_used_next i).2
  · intro i hi
    rw [(fill_used_next i).1]
    exact h.used i hi
  · intro f hf
    rcases List.mem_append.mp hf with hf | hf
    · refine (hs f hf).congr (fun i hi => congrArg Node.data ?_)
      exact fill_of_notMem fun hc => hd.2.2 (mem_owned.mpr ⟨f, hf, hi⟩) hc
    · rw [List.mem_singleton.mp hf]
      exact fill_stored hd.2.1

end OsWorkbench.Kvdb
