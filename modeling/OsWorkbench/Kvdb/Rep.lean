import OsWorkbench.Kvdb.Model

/-!
# The representation of the store

A `kvdb_t` represents a list of entries in item order. Each entry owns a chain of
data blocks, threaded by `next` and closed by `-1`, that holds the bytes of its
value; the chains are disjoint and `used` marks exactly their blocks.
-/

namespace OsWorkbench.Kvdb

/-- The number of data blocks of a value. -/
def need (v : CStr) : Nat := (v.length + dataLength - 1) / dataLength

theorem blocks_length (v : CStr) : blocks v.length = need v := by
  unfold blocks need dataLength
  rw [Int.tdiv_eq_ediv_of_nonneg (by omega)]
  omega

theorem lt_need_iff {v : CStr} {n : Nat} : n < need v ↔ dataLength * n < v.length := by
  unfold need dataLength
  omega

/-- Walking `next` along the chain visits its blocks and ends at `-1`. -/
def Threaded (datas : Nat → Node) : List Nat → Prop
  | [] => True
  | i :: chain => i < datasSize ∧ (datas i).next = headOf chain ∧ Threaded datas chain

/-- The blocks of the chain hold the bytes of `v` from row `cnt` on. -/
def Stored (datas : Nat → Node) (v : CStr) : Nat → List Nat → Prop
  | _, [] => True
  | cnt, i :: chain =>
    (∀ j, j < dataLength → (datas i).data j = v.get (dataLength * cnt + j)) ∧
      Stored datas v (cnt + 1) chain

structure Entry where
  key : CStr
  value : CStr
  chain : List Nat

/-- The blocks in use. -/
def owned (E : List Entry) : List Nat := E.flatMap Entry.chain

/-- The chains of the entries, whatever the order of the entries. -/
structure Blocks (datas : Nat → Node) (E : List Entry) : Prop where
  threaded : ∀ e ∈ E, Threaded datas e.chain
  length : ∀ e ∈ E, e.chain.length = need e.value
  rows_lt : ∀ e ∈ E, need e.value < rows
  key_lt : ∀ e ∈ E, e.key.length < keyLength
  keys : (E.map Entry.key).Nodup
  disjoint : (owned E).Nodup
  used : ∀ i, i < datasSize → (datas i).used = if i ∈ owned E then 1 else 0

/-- The items and the chains of `db` are those of the entries. -/
structure Shape (db : Db) (E : List Entry) : Prop extends Blocks db.datas E where
  size : db.size = E.length
  fits : E.length ≤ itemsSize
  item : ∀ {n e}, E[n]? = some e → db.items n = ⟨headOf e.chain, e.value.length, e.key⟩

/-- `db` represents the entries. -/
structure Rep (db : Db) (E : List Entry) : Prop extends Shape db E where
  stored : ∀ e ∈ E, Stored db.datas e.value 0 e.chain

/-! ## Chains -/

section Chains

variable {datas datas' : Nat → Node} {chain : List Nat} {v : CStr} {cnt : Nat}

theorem headD_map (chain : List Nat) : (chain.map Int.ofNat).headD (-1) = headOf chain := by
  cases chain <;> rfl

theorem Threaded.lt (h : Threaded datas chain) : ∀ i ∈ chain, i < datasSize := by
  induction chain with
  | nil => simp
  | cons a chain ih =>
    intro i hi
    rcases List.mem_cons.mp hi with rfl | hi
    · exact h.1
    · exact ih h.2.2 i hi

theorem Threaded.congr (h : Threaded datas chain)
    (hn : ∀ i ∈ chain, (datas' i).next = (datas i).next) : Threaded datas' chain := by
  induction chain with
  | nil => trivial
  | cons a chain ih =>
    refine ⟨h.1, ?_, ih h.2.2 fun i hi => hn i (by simp [hi])⟩
    rw [hn a (by simp)]
    exact h.2.1

theorem Stored.congr (h : Stored datas v cnt chain)
    (hd : ∀ i ∈ chain, (datas' i).data = (datas i).data) : Stored datas' v cnt chain := by
  induction chain generalizing cnt with
  | nil => trivial
  | cons a chain ih =>
    refine ⟨fun j hj => ?_, ih h.2 fun i hi => hd i (by simp [hi])⟩
    rw [hd a (by simp)]
    exact h.1 j hj

/-- The blocks after the loop of `kvdb_free`. -/
def clearUsed (datas : Nat → Node) (chain : List Nat) (i : Nat) : Node :=
  if i ∈ chain then { datas i with used := 0 } else datas i

theorem kvdbFreeLoop_eq (h : Threaded datas chain) :
    kvdbFreeLoop datas chain.length (headOf chain) = .ok (clearUsed datas chain, -1) := by
  induction chain generalizing datas with
  | nil =>
    have hnil : clearUsed datas [] = datas := by
      funext i
      simp [clearUsed]
    rw [List.length_nil, kvdbFreeLoop, headOf_nil, hnil]
  | cons a chain ih =>
    obtain ⟨ha, hn, h⟩ := h
    have h' : Threaded (Function.update datas a { datas a with used := 0 }) chain := by
      refine h.congr (fun i _ => ?_)
      by_cases hi : i = a
      · subst hi; simp
      · simp [hi]
    rw [List.length_cons, kvdbFreeLoop, headOf_cons, index_bind ha, hn, ih h']
    congr 2
    funext i
    by_cases hi : i = a
    · subst hi; simp [clearUsed]
    · simp [clearUsed, hi]

theorem strncpy_congr {dst src src' : Nat → UInt8} {off n : Nat}
    (h : ∀ j, j < n → src j = src' j) : strncpy dst off src n = strncpy dst off src' n := by
  funext p
  unfold strncpy
  split
  · next hp =>
    have hiff : (∀ j, j ≤ p - off → src j ≠ 0) ↔ ∀ j, j ≤ p - off → src' j ≠ 0 := by
      refine forall_congr' fun j => imp_congr_right fun hj => ?_
      rw [h j (by omega)]
    simp only [hiff, h (p - off) (by omega)]
  · rfl

theorem kvdbReadLoop_eq (ht : Threaded datas chain) (hs : Stored datas v cnt chain)
    (hr : cnt + chain.length ≤ rows) (readbuf : Nat → UInt8) :
    kvdbReadLoop datas chain.length cnt (headOf chain) readbuf =
      .ok (fun p => if dataLength * cnt ≤ p ∧ p < dataLength * (cnt + chain.length) then v.get p
        else readbuf p, -1) := by
  induction chain generalizing cnt readbuf with
  | nil =>
    have hempty : ∀ p, ¬(dataLength * cnt ≤ p ∧ p < dataLength * (cnt + 0)) := by
      intro p hp
      exact absurd hp.1 (not_le.mpr hp.2)
    simp only [List.length_nil, kvdbReadLoop, headOf_nil, if_neg (hempty _)]
  | cons a chain ih =>
    obtain ⟨ha, hn, ht⟩ := ht
    obtain ⟨hd, hs⟩ := hs
    rw [List.length_cons] at hr
    rw [List.length_cons, kvdbReadLoop, headOf_cons, inBounds_bind (by omega), index_bind ha, hn,
      ih ht hs (by omega), strncpy_congr hd, strncpy_get]
    congr 2
    funext p
    have hrow : dataLength * (cnt + 1) = dataLength * cnt + dataLength := by ring
    have hend : dataLength * (cnt + 1 + chain.length) =
        dataLength * (cnt + (chain.length + 1)) := by
      ring
    have hle : dataLength * (cnt + 1) ≤ dataLength * (cnt + 1 + chain.length) :=
      Nat.mul_le_mul_left _ (by omega)
    beta_reduce
    by_cases h1 : dataLength * cnt ≤ p ∧ p < dataLength * (cnt + (chain.length + 1))
    · rw [if_pos h1]
      by_cases h2 : dataLength * (cnt + 1) ≤ p
      · rw [if_pos ⟨h2, by omega⟩]
      · rw [if_neg (by omega), if_pos (by omega)]
        congr 1
        omega
    · rw [if_neg h1, if_neg (by omega), if_neg (by omega)]

/-- The bytes that `kvdb_write` stores do not depend on what `writebuf` held before. -/
theorem kvdbWriteLoop_strcpy (w : Nat → UInt8) {n : Nat} (hn : cnt + n ≤ need v) (x : Int)
    (datas : Nat → Node) :
    kvdbWriteLoop (strcpy w v) n cnt x datas = kvdbWriteLoop v.get n cnt x datas := by
  induction n generalizing cnt x datas with
  | zero => rfl
  | succ n ih =>
    have hrow : dataLength * cnt ≤ v.length := (lt_need_iff.mp (by omega)).le
    simp only [kvdbWriteLoop]
    refine congrArg _ (funext fun _ => congrArg _ (funext fun i => ?_))
    rw [strncpy_strcpy _ _ _ _ _ hrow, ih (by omega)]

/-- The blocks after the loop of `kvdb_write`. -/
def fill (v : CStr) : Nat → List Nat → (Nat → Node) → Nat → Node
  | _, [], datas => datas
  | cnt, i :: chain, datas =>
    fill v (cnt + 1) chain (Function.update datas i { datas i with
      data := fun j => if j < dataLength then v.get (dataLength * cnt + j) else (datas i).data j })

theorem kvdbWriteLoop_eq (ht : Threaded datas chain) (hr : cnt + chain.length ≤ rows) :
    kvdbWriteLoop v.get chain.length cnt (headOf chain) datas =
      .ok (fill v cnt chain datas, -1) := by
  induction chain generalizing cnt datas with
  | nil => rfl
  | cons a chain ih =>
    obtain ⟨ha, hn, ht⟩ := ht
    rw [List.length_cons] at hr
    rw [List.length_cons, kvdbWriteLoop, headOf_cons, inBounds_bind (by omega), index_bind ha, hn]
    simp only [strncpy_get, Nat.zero_le, true_and, Nat.zero_add, Nat.sub_zero]
    rw [ih (ht.congr fun i _ => ?_) (by omega), fill]
    by_cases hi : i = a
    · subst hi; simp
    · simp [hi]

theorem fill_used_next (i : Nat) :
    (fill v cnt chain datas i).used = (datas i).used ∧
      (fill v cnt chain datas i).next = (datas i).next := by
  induction chain generalizing cnt datas with
  | nil => exact ⟨rfl, rfl⟩
  | cons a chain ih =>
    rw [fill, ih.1, ih.2]
    by_cases hi : i = a
    · subst hi; simp
    · simp [hi]

theorem fill_of_notMem {i : Nat} (hi : i ∉ chain) : fill v cnt chain datas i = datas i := by
  induction chain generalizing cnt datas with
  | nil => rfl
  | cons a chain ih =>
    rw [List.mem_cons, not_or] at hi
    rw [fill, ih hi.2, Function.update_of_ne hi.1]

theorem fill_stored (hd : chain.Nodup) : Stored (fill v cnt chain datas) v cnt chain := by
  induction chain generalizing cnt datas with
  | nil => trivial
  | cons a chain ih =>
    obtain ⟨ha, hd⟩ := List.nodup_cons.mp hd
    refine ⟨fun j hj => ?_, ih hd⟩
    rw [fill, fill_of_notMem ha, Function.update_self]
    exact if_pos hj

theorem kvdbChain_of_notMem {i : Nat} (hi : i ∉ chain) :
    kvdbChain datas (chain.map Int.ofNat) i = datas i := by
  induction chain generalizing datas with
  | nil => rfl
  | cons a chain ih =>
    rw [List.mem_cons, not_or] at hi
    rw [List.map_cons, kvdbChain, ih hi.2, Function.update_of_ne (by simpa using hi.1)]

theorem kvdbChain_data (i : Nat) :
    (kvdbChain datas (chain.map Int.ofNat) i).data = (datas i).data := by
  induction chain generalizing datas with
  | nil => rfl
  | cons a chain ih =>
    rw [List.map_cons, kvdbChain, ih]
    by_cases hi : i = a
    · subst hi; simp
    · rw [Function.update_of_ne (by simpa using hi)]

theorem kvdbChain_used {i : Nat} (hd : chain.Nodup) (hi : i ∈ chain) :
    (kvdbChain datas (chain.map Int.ofNat) i).used = 1 := by
  induction chain generalizing datas with
  | nil => cases hi
  | cons a chain ih =>
    obtain ⟨ha, hd⟩ := List.nodup_cons.mp hd
    rw [List.map_cons, kvdbChain]
    rcases List.mem_cons.mp hi with rfl | hi
    · rw [kvdbChain_of_notMem ha]
      simp
    · exact ih hd hi

theorem kvdbChain_threaded (hd : chain.Nodup) (hlt : ∀ i ∈ chain, i < datasSize) :
    Threaded (kvdbChain datas (chain.map Int.ofNat)) chain := by
  induction chain generalizing datas with
  | nil => trivial
  | cons a chain ih =>
    obtain ⟨ha, hd⟩ := List.nodup_cons.mp hd
    refine ⟨hlt a (by simp), ?_, ih hd fun i hi => hlt i (by simp [hi])⟩
    rw [List.map_cons, kvdbChain, kvdbChain_of_notMem ha, headD_map]
    simp

end Chains

end OsWorkbench.Kvdb
