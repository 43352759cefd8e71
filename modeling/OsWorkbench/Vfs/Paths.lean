import OsWorkbench.Vfs.Walk
import OsWorkbench.Vfs.Image

/-!
# Paths

What `tmppath` holds before and after a lookup, and how the walk along a path goes on
behind a directory. A path whose last item is not empty is that of its parent, a slash
and the item, unless the path of the parent ends in a slash itself.
-/

namespace OsWorkbench.Vfs

open Lib

/-! ## `tmppath` -/

section Tmppath

variable {s t : State} {p : CStr} {n : Nat}

theorem str_eq_iff {offset : Nat} (h : p.length < tmppathLength - offset) :
    s.str offset = p ↔
      (∀ i, i < p.length → s.tmppath (offset + i) = p.get i) ∧ s.tmppath (offset + p.length) = 0 :=
  CStr.ofBuf_eq_iff h

theorem strcpyTmp_eq_ok : strcpyTmp s p = .ok t ↔
    p.length < tmppathLength ∧ t = { s with tmppath := strcpy s.tmppath p } := by
  simp only [strcpyTmp, bind_eq_ok, inBounds_eq_ok, pure_eq_ok, Except.ok.injEq]
  constructor
  · rintro ⟨u, h, he⟩
    exact ⟨h, he.symm⟩
  · rintro ⟨h, he⟩
    exact ⟨(), h, he.symm⟩

theorem strcpyTmp_str (h : strcpyTmp s p = .ok t) : t.str 0 = p := by
  obtain ⟨hlt, rfl⟩ := strcpyTmp_eq_ok.mp h
  rw [str_eq_iff (by omega)]
  refine ⟨fun i hi => ?_, ?_⟩
  · simp only [Nat.zero_add, strcpy]
    exact if_pos hi.le
  · simp only [Nat.zero_add, strcpy]
    rw [if_pos le_rfl, CStr.get_eq_zero]

/-- The path is cut at an offset within it. -/
theorem cutTmp_str (h : s.str 0 = p) (hp : p.length < tmppathLength) (hn : n < p.length) :
    (cutTmp s n).str 0 = p.take n ∧ (cutTmp s n).str (n + 1) = p.drop (n + 1) := by
  obtain ⟨hget, hend⟩ := (str_eq_iff hp).mp h
  simp only [Nat.zero_add] at hget hend
  have htake := CStr.length_take hn.le
  have hdrop := CStr.length_drop p (n + 1)
  constructor
  · rw [str_eq_iff (by omega), htake]
    refine ⟨fun i hi => ?_, ?_⟩
    · rw [CStr.get_take hi, ← hget i (by omega), cutTmp, Nat.zero_add]
      exact Function.update_of_ne hi.ne _ _
    · rw [cutTmp, Nat.zero_add]
      exact Function.update_self ..
  · rw [str_eq_iff (by omega), hdrop]
    refine ⟨fun i hi => ?_, ?_⟩
    · rw [CStr.get_drop, ← hget (n + 1 + i) (by omega), cutTmp]
      exact Function.update_of_ne (by omega) _ _
    · rw [cutTmp, show n + 1 + (p.length - (n + 1)) = p.length by omega, ← hend]
      exact Function.update_of_ne (by omega) _ _

/-- A path without the slash at its end. -/
def trim (p : CStr) : CStr := if p.bytes.getLast? = some slash then p.dropLast else p

theorem length_trim_le (p : CStr) : (trim p).length ≤ p.length := by
  unfold trim CStr.length
  split <;> simp

theorem trim_of_ne (h : p.bytes.getLast? ≠ some slash) : trim p = p := if_neg h

theorem get_last (hp : 0 < p.length) : p.bytes.getLast? = some (p.get (p.length - 1)) := by
  rw [CStr.get_of_lt (by omega), List.getLast?_eq_getElem?, List.getElem?_eq_getElem (by
    show p.bytes.length - 1 < p.bytes.length
    have : 0 < p.bytes.length := hp
    omega)]
  rfl

theorem stripSlash_str (h : s.str 0 = p) (hp : p.length < tmppathLength) :
    (stripSlash s).str 0 = trim p ∧ ∀ i, p.length ≤ i → (stripSlash s).tmppath i = s.tmppath i := by
  obtain ⟨hget, hend⟩ := (str_eq_iff hp).mp h
  simp only [Nat.zero_add] at hget hend
  simp only [stripSlash, h]
  split
  next h0 =>
    have hne : p.bytes.getLast? ≠ some slash := by
      rw [List.length_eq_zero_iff.mp h0]
      simp
    exact ⟨(trim_of_ne hne).symm ▸ h, fun _ _ => rfl⟩
  next h0 =>
    have hlast := get_last (Nat.pos_of_ne_zero h0)
    rw [hget _ (by omega)]
    split
    next hs =>
      rw [hs] at hlast
      have hlen : p.dropLast.length = p.length - 1 := by simp [CStr.length]
      rw [trim, if_pos hlast]
      refine ⟨?_, fun i hi => Function.update_of_ne (by omega) _ _⟩
      rw [str_eq_iff (by omega), hlen]
      refine ⟨fun i hi => ?_, ?_⟩
      · dsimp only
        rw [Nat.zero_add, Function.update_of_ne (by omega), hget i (by omega), CStr.get, CStr.get,
          CStr.bytes_dropLast, List.getD_eq_getElem?_getD, List.getD_eq_getElem?_getD,
          List.getElem?_dropLast, if_pos (show i < p.bytes.length - 1 from hi)]
      · dsimp only
        rw [Nat.zero_add]
        exact Function.update_self ..
    next hs =>
      have hne : p.bytes.getLast? ≠ some slash := by
        rw [hlast]
        simpa using hs
      exact ⟨(trim_of_ne hne).symm ▸ h, fun _ _ => rfl⟩

end Tmppath

/-! ## The walk along a path -/

section Walks

variable {V W : Vinodes} {kids kids' : Nat → List Nat} {R : Set Nat} {live : Nat → Prop}

/-- The characters of the first item of the path, and the slash behind it. -/
def skipLen (path : List UInt8) : Nat :=
  firstItemLen path + if path[firstItemLen path]? = some slash then 1 else 0

/-- The child that the first item of the path names. -/
def childFor (V : Vinodes) (kids : Nat → List Nat) (cur : Nat) (path : List UInt8) : Option Nat :=
  (kids cur).find? fun j => itemMatch (V j).name path (firstItemLen path)

/-- The vinode on the ring of `k` that is no link. -/
def RealOf (V : Vinodes) (k r : Nat) : Prop := Orbit (nextOf V) k r ∧ (V r).link = false

/-- The path leads from `cur` to `d`. -/
inductive Walks (V : Vinodes) (kids : Nat → List Nat) : Nat → List UInt8 → Nat → Prop
  | done (cur : Nat) : Walks V kids cur [] cur
  | step {cur k r d : Nat} {path : List UInt8} : path ≠ [] → childFor V kids cur path = some k →
      RealOf V k r → Walks V kids r (path.drop (skipLen path)) d → Walks V kids cur path d

theorem Walks.nil_eq {cur d : Nat} (h : Walks V kids cur [] d) : d = cur := by
  cases h with
  | done => rfl
  | step hne => exact absurd rfl hne

theorem Wide.realOf_unique (h : Wide V kids R live) {k r r' : Nat} (hk : live k) (hr : RealOf V k r)
    (hr' : RealOf V k r') : r = r' := by
  obtain ⟨q, -, -, -, huniq⟩ := h.rings.one hk
  exact (huniq r hr.1 hr.2).trans (huniq r' hr'.1 hr'.2).symm

theorem Wide.realOf_live (h : Wide V kids R live) {k r : Nat} (hk : live k) (hr : RealOf V k r) :
    live r := by
  obtain ⟨q, hq, hql, ho, -⟩ := h.rings.one hk
  obtain rfl := h.realOf_unique hk hr ⟨ho, hql⟩
  exact hq

theorem Wide.exists_realOf (h : Wide V kids R live) {k : Nat} (hk : live k) :
    ∃ r, RealOf V k r := by
  obtain ⟨r, -, hl, ho, -⟩ := h.rings.one hk
  exact ⟨r, ho, hl⟩

theorem childFor_mem {cur k : Nat} {path : List UInt8} (h : childFor V kids cur path = some k) :
    k ∈ kids cur := List.mem_of_find?_eq_some h

theorem Wide.live_kid (h : Wide V kids R live) {cur k : Nat} {path : List UInt8} (hcur : live cur)
    (hk : childFor V kids cur path = some k) : live k :=
  h.of_tree (h.kid hcur (childFor_mem hk)).2

theorem Wide.live_root (h : Wide V kids R live) : live 0 := h.of_tree .root

theorem Walks.live_end (h : Wide V kids R live) {cur d : Nat} {path : List UInt8}
    (hw : Walks V kids cur path d)
    (hcur : live cur) (hl : (V cur).link = false) : live d ∧ (V d).link = false := by
  induction hw with
  | done cur => exact ⟨hcur, hl⟩
  | step _ hk hr _ ih =>
    exact ih (h.realOf_live (h.live_kid hcur hk) hr) hr.2

theorem Wide.followLink_realOf (h : Wide V kids R live) {k r : Nat} (hk : live k)
    (hr : RealOf V k r) :
    Vfs.followLink V maxVinode k = .ok (r : Int) := by
  obtain ⟨r', hfollow, -, hl, ho⟩ := h.followLink hk
  obtain rfl := h.realOf_unique hk hr ⟨ho, hl⟩
  exact hfollow

/-- One round of `lookup_cur`. -/
theorem Wide.lookupCur_step (h : Wide V kids R live) {cur : Nat} {path : List UInt8}
    (hpath : path ≠ [])
    (hcur : live cur) (hl : (V cur).link = false) (fuel offset : Nat) :
    (childFor V kids cur path = none →
      Vfs.lookupCur V (fuel + 1) path cur offset = .ok (false, cur, offset)) ∧
    ∀ {k r}, childFor V kids cur path = some k → RealOf V k r →
      Vfs.lookupCur V (fuel + 1) path cur offset =
        Vfs.lookupCur V fuel (path.drop (skipLen path)) r (offset + skipLen path) := by
  cases path with
  | nil => exact absurd rfl hpath
  | cons c path =>
    rw [Vfs.lookupCur, get_nat (h.lt_live hcur), ok_bind, h.findChild hcur hl, ok_bind]
    refine ⟨fun hnone => ?_, fun {k r} hk hr => ?_⟩
    · rw [show (kids cur).find? _ = none from hnone, orNone_none, if_pos rfl, pure_eq_ok]
    · rw [show (kids cur).find? _ = some k from hk, orNone_some, if_neg (by omega),
        h.followLink_realOf (h.live_kid hcur hk) hr, ok_bind]
      rfl
    · exact hpath

theorem length_drop_skipLen {path : List UInt8} (hp : path ≠ []) :
    (path.drop (skipLen path)).length < path.length := length_drop_skip hp

theorem Wide.lookupCur_walks (h : Wide V kids R live) {cur d : Nat} {path : List UInt8}
    (hw : Walks V kids cur path d) {fuel : Nat} (hlen : path.length ≤ fuel) (hcur : live cur)
    (hl : (V cur).link = false) (offset : Nat) :
    ∃ offset' : Nat, Vfs.lookupCur V fuel path cur offset = .ok (true, d, offset') := by
  induction hw generalizing fuel offset with
  | done cur =>
    refine ⟨offset, ?_⟩
    cases fuel <;> rfl
  | @step cur k r d path hne hk hr _ ih =>
    have hlt := length_drop_skipLen hne
    cases fuel with
    | zero => omega
    | succ fuel =>
      rw [(h.lookupCur_step hne hcur hl fuel offset).2 hk hr]
      exact ih (by omega) (h.realOf_live (h.live_kid hcur hk) hr) hr.2 _

/-- The walk stops at `d`, which has no child for what is left of the path. -/
inductive Sticks (V : Vinodes) (kids : Nat → List Nat) : Nat → List UInt8 → Nat → List UInt8 → Prop
  | here {cur : Nat} {path : List UInt8} : path ≠ [] → childFor V kids cur path = none →
      Sticks V kids cur path cur path
  | step {cur k r d : Nat} {path rest : List UInt8} : path ≠ [] →
      childFor V kids cur path = some k → RealOf V k r →
      Sticks V kids r (path.drop (skipLen path)) d rest → Sticks V kids cur path d rest

theorem Sticks.live_end (h : Wide V kids R live) {cur d : Nat} {path rest : List UInt8}
    (hw : Sticks V kids cur path d rest) (hcur : live cur) (hl : (V cur).link = false) :
    live d ∧ (V d).link = false := by
  induction hw with
  | here => exact ⟨hcur, hl⟩
  | step _ hk hr _ ih =>
    exact ih (h.realOf_live (h.live_kid hcur hk) hr) hr.2

/-- A walk ends or sticks. -/
theorem Wide.walks_or_sticks (h : Wide V kids R live) {cur : Nat} (path : List UInt8)
    (hcur : live cur) :
    (∃ d, Walks V kids cur path d) ∨ ∃ d rest, Sticks V kids cur path d rest := by
  induction hlen : path.length using Nat.strong_induction_on generalizing cur path with
  | _ len ih =>
    by_cases hne : path = []
    · exact .inl ⟨cur, hne ▸ .done cur⟩
    · cases hk : childFor V kids cur path with
      | none => exact .inr ⟨cur, path, .here hne hk⟩
      | some k =>
        have hkl : live k := h.live_kid hcur hk
        obtain ⟨r, hr⟩ := h.exists_realOf hkl
        rcases ih _ (hlen ▸ length_drop_skipLen hne) _ (h.realOf_live hkl hr) rfl with
          ⟨d, hw⟩ | ⟨d, rest, hs⟩
        · exact .inl ⟨d, .step hne hk hr hw⟩
        · exact .inr ⟨d, rest, .step hne hk hr hs⟩

theorem Wide.lookupCur_sticks (h : Wide V kids R live) {cur d : Nat} {path rest : List UInt8}
    (hw : Sticks V kids cur path d rest) {fuel : Nat} (hlen : path.length ≤ fuel)
    (hcur : live cur) (hl : (V cur).link = false) (offset : Nat) :
    ∃ n : Nat, Vfs.lookupCur V fuel path cur offset = .ok (false, d, offset + n) ∧
      rest = path.drop n := by
  induction hw generalizing fuel offset with
  | @here cur path hne hk =>
    cases fuel with
    | zero => exact absurd (List.length_eq_zero_iff.mp (Nat.le_zero.mp hlen)) hne
    | succ fuel => exact ⟨0, (h.lookupCur_step hne hcur hl fuel offset).1 hk, rfl⟩
  | @step cur k r d path rest hne hk hr _ ih =>
    have hlt := length_drop_skipLen hne
    cases fuel with
    | zero => omega
    | succ fuel =>
      obtain ⟨n, hres, hrest⟩ := @ih fuel (by omega) (h.realOf_live (h.live_kid hcur hk) hr) hr.2
        (offset + skipLen path)
      refine ⟨skipLen path + n, ?_, ?_⟩
      · rw [(h.lookupCur_step hne hcur hl fuel offset).2 hk hr, hres, Nat.add_assoc]
      · rw [hrest, List.drop_drop]

/-! ## Items -/

theorem firstItemLen_append {q : List UInt8} (rest : List UInt8) :
    firstItemLen (q ++ slash :: rest) = firstItemLen q := by
  unfold firstItemLen
  induction q with
  | nil => simp
  | cons c q ih =>
    rw [List.cons_append, List.takeWhile_cons, List.takeWhile_cons]
    split
    · simp only [List.length_cons, ih]
    · rfl

theorem firstItemLen_le (q : List UInt8) : firstItemLen q ≤ q.length :=
  (List.takeWhile_prefix _).length_le

/-- The item takes the whole path, or there is a slash behind it. -/
theorem firstItemLen_cases (q : List UInt8) :
    (firstItemLen q = q.length ∧ slash ∉ q) ∨
      (firstItemLen q < q.length ∧ q[firstItemLen q]? = some slash) := by
  unfold firstItemLen
  induction q with
  | nil => exact .inl ⟨rfl, List.not_mem_nil⟩
  | cons c q ih =>
    rw [List.takeWhile_cons]
    split
    next hc =>
      simp only [List.length_cons, List.getElem?_cons_succ, Nat.add_lt_add_iff_right,
        Nat.add_right_cancel_iff]
      refine ih.imp_left fun ⟨hlen, hq⟩ => ⟨hlen, ?_⟩
      simp only [List.mem_cons, not_or]
      exact ⟨fun he => by simp [← he] at hc, hq⟩
    next hc =>
      right
      simp only [bne_iff_ne, ne_eq, not_not] at hc
      simp [hc]

theorem skipLen_of_notMem {q : List UInt8} (h : slash ∉ q) : skipLen q = q.length := by
  rcases firstItemLen_cases q with ⟨hlen, -⟩ | ⟨-, hs⟩
  · rw [skipLen, hlen, if_neg (by simp)]
    rfl
  · exact absurd (List.mem_of_getElem? hs) h

theorem childFor_append {cur : Nat} (q rest : List UInt8) :
    childFor V kids cur (q ++ slash :: rest) = childFor V kids cur q := by
  unfold childFor itemMatch
  rw [firstItemLen_append, List.take_append_of_le_length (firstItemLen_le q)]

/-- What the first round leaves of a path that goes on. -/
theorem drop_append {q : List UInt8} (hlast : q.getLast? ≠ some slash)
    (rest : List UInt8) :
    (q.drop (skipLen q) = [] ∧ (q ++ slash :: rest).drop (skipLen (q ++ slash :: rest)) = rest) ∨
      (q.drop (skipLen q) ≠ [] ∧ (q.drop (skipLen q)).getLast? ≠ some slash ∧
        (q ++ slash :: rest).drop (skipLen (q ++ slash :: rest)) =
          q.drop (skipLen q) ++ slash :: rest) := by
  rcases firstItemLen_cases q with ⟨hlen, hs⟩ | ⟨hlt, hs⟩
  · left
    have hskip : skipLen (q ++ slash :: rest) = q.length + 1 := by
      rw [skipLen, firstItemLen_append, hlen, if_pos (by simp)]
    refine ⟨by rw [skipLen_of_notMem hs, List.drop_length], ?_⟩
    rw [hskip, List.drop_append, List.drop_of_length_le (by omega)]
    simp
  · right
    have hskip : skipLen q = firstItemLen q + 1 := by rw [skipLen, if_pos hs]
    have hskip' : skipLen (q ++ slash :: rest) = firstItemLen q + 1 := by
      rw [skipLen, firstItemLen_append, List.getElem?_append_left hlt, if_pos hs]
    have hne : q.drop (firstItemLen q + 1) ≠ [] := by
      intro hnil
      have hlen : q.length = firstItemLen q + 1 := by
        have := List.drop_eq_nil_iff.mp hnil
        omega
      rw [List.getLast?_eq_getElem?, hlen, Nat.add_sub_cancel] at hlast
      exact hlast hs
    rw [hskip, hskip']
    refine ⟨hne, ?_, ?_⟩
    · rwa [List.getLast?_drop, if_neg fun h => hne (List.drop_eq_nil_iff.mpr h)]
    · rw [List.drop_append_of_le_length (by omega)]

theorem append_ne_nil (q rest : List UInt8) : q ++ slash :: rest ≠ [] := by simp

/-- A walk goes on behind a directory. -/
theorem Walks.append {cur d e : Nat} {q rest : List UInt8} (hw : Walks V kids cur q d) (hq : q ≠ [])
    (hlast : q.getLast? ≠ some slash) (hw' : Walks V kids d rest e) :
    Walks V kids cur (q ++ slash :: rest) e := by
  induction hw with
  | done => exact absurd rfl hq
  | @step cur k r d q _ hk hr hw ih =>
    refine .step (append_ne_nil q rest) ((childFor_append q rest).trans hk) hr ?_
    rcases drop_append hlast rest with ⟨hnil, heq⟩ | ⟨hne, hl, heq⟩
    · rw [hnil] at hw
      cases hw with
      | done =>
        rw [heq]
        exact hw'
      | step hne => exact absurd rfl hne
    · rw [heq]
      exact ih hne hl hw'

theorem Walks.sticks {cur d e : Nat} {q rest r : List UInt8} (hw : Walks V kids cur q d)
    (hq : q ≠ [])
    (hlast : q.getLast? ≠ some slash) (hs : Sticks V kids d rest e r) :
    Sticks V kids cur (q ++ slash :: rest) e r := by
  induction hw with
  | done => exact absurd rfl hq
  | @step cur k r' d q _ hk hr hw ih =>
    refine .step (append_ne_nil q rest) ((childFor_append q rest).trans hk) hr ?_
    rcases drop_append hlast rest with ⟨hnil, heq⟩ | ⟨hne, hl, heq⟩
    · rw [hnil] at hw
      cases hw with
      | done =>
        rw [heq]
        exact hs
      | step hne => exact absurd rfl hne
    · rw [heq]
      exact ih hne hl hs

/-- The child of that name. -/
def childNamed (V : Vinodes) (kids : Nat → List Nat) (d : Nat) (name : CStr) : Option Nat :=
  (kids d).find? fun j => (V j).name == name

theorem childFor_name {d : Nat} {name : CStr} (h : slash ∉ name.bytes) :
    childFor V kids d name.bytes = childNamed V kids d name := by
  unfold childFor childNamed itemMatch
  congr 1
  funext j
  rcases firstItemLen_cases name.bytes with ⟨hlen, -⟩ | ⟨-, hs⟩
  · rw [hlen, List.take_length]
    simp only [beq_eq_beq, CStr.ext_iff]
  · exact absurd (List.mem_of_getElem? hs) h

/-- An item alone. -/
theorem walks_name {d k r : Nat} {name : CStr} (hne : name.bytes ≠ []) (h : slash ∉ name.bytes)
    (hk : childNamed V kids d name = some k) (hr : RealOf V k r) : Walks V kids d name.bytes r := by
  refine .step hne ((childFor_name h).trans hk) hr ?_
  rw [skipLen_of_notMem h, List.drop_length]
  exact .done r

theorem sticks_name {d : Nat} {name : CStr} (hne : name.bytes ≠ []) (h : slash ∉ name.bytes)
    (hk : childNamed V kids d name = none) : Sticks V kids d name.bytes d name.bytes :=
  .here hne ((childFor_name h).trans hk)

end Walks

/-! ## Lookups -/

/-- The path from the root. -/
def rel (path : List UInt8) : List UInt8 := if path.head? = some slash then path.drop 1 else path

/-- The path is that of its parent, a slash and a name. -/
structure Splits (p pre name : CStr) : Prop where
  eq : p.bytes = pre.bytes ++ slash :: name.bytes
  name_ne : name.bytes ≠ []
  name_slash : slash ∉ name.bytes
  pre_last : pre.bytes.getLast? ≠ some slash

namespace Splits

variable {p pre name : CStr} (h : Splits p pre name)
include h

theorem length : p.length = pre.length + 1 + name.length := by
  unfold CStr.length
  rw [h.eq, List.length_append, List.length_cons]
  omega

theorem take : p.take pre.length = pre := by
  ext1
  rw [CStr.bytes_take, h.eq]
  exact List.take_left' rfl

theorem drop : p.drop (pre.length + 1) = name := by
  ext1
  rw [CStr.bytes_drop, h.eq, ← List.drop_drop]
  rw [List.drop_left' (show pre.bytes.length = pre.length from rfl)]
  rfl

theorem takeWhile : (p.bytes.reverse.takeWhile fun c => c != slash).length = name.length := by
  have hall : ∀ c ∈ name.bytes.reverse, (c != slash) = true := fun c hc => by
    simpa using fun he : c = slash => h.name_slash (he ▸ List.mem_reverse.mp hc)
  rw [h.eq, List.reverse_append, List.reverse_cons, List.append_assoc,
    List.takeWhile_append_of_pos hall]
  simp [CStr.length]

theorem last : p.bytes.getLast? ≠ some slash := by
  rw [h.eq, List.append_cons, List.getLast?_append_of_ne_nil _ h.name_ne]
  exact fun hl => h.name_slash (List.mem_of_getLast? hl)

theorem rel_eq : (pre.bytes = [] ∧ rel p.bytes = name.bytes ∧ rel pre.bytes = []) ∨
    (rel pre.bytes ≠ [] ∧ (rel pre.bytes).getLast? ≠ some slash ∧
      rel p.bytes = rel pre.bytes ++ slash :: name.bytes) := by
  have hlast := h.pre_last
  rw [h.eq]
  cases hpre : pre.bytes with
  | nil => exact .inl ⟨rfl, by simp [rel], rfl⟩
  | cons c q =>
    right
    rw [hpre] at hlast
    unfold rel
    simp only [List.head?_cons, List.cons_append, Option.some.injEq, List.drop_succ_cons,
      List.drop_zero]
    split
    next hc =>
      cases q with
      | nil => simp [hc] at hlast
      | cons c' q => exact ⟨by simp, by simpa using hlast, rfl⟩
    · exact ⟨by simp, hlast, rfl⟩

theorem lastItemLen_eq : lastItemLen p = .ok name.length := by
  unfold lastItemLen
  rw [inBounds_bind (by rw [h.eq]; simp), h.takeWhile, pure_eq_ok]

theorem offset_eq : p.length - name.length - 1 = pre.length := by
  have := h.length
  omega

end Splits

section Lookup

variable {s t : State} {kids : Nat → List Nat} {R : Set Nat} {live : Nat → Prop} {p pre name : CStr}
    {d e : Nat}

theorem lookup_eq (s : State) : lookup s =
    lookupCur s.vinodes (s.str 0).length (rel (s.str 0).bytes) vfsRoot 1 := by
  unfold lookup rel
  dsimp only
  split <;> rfl

theorem length_rel_le (q : List UInt8) : (rel q).length ≤ q.length := by
  unfold rel
  split <;> simp

theorem Wide.lookup_walks (h : Wide s.vinodes kids R live)
    (hw : Walks s.vinodes kids 0 (rel (s.str 0).bytes) d) :
    ∃ offset : Nat, Vfs.lookup s = .ok (true, d, offset) := by
  rw [lookup_eq]
  exact h.lookupCur_walks hw (length_rel_le _) h.live_root h.tree.root.1 1

theorem Wide.lookup_sticks {rest : List UInt8} (h : Wide s.vinodes kids R live)
    (hw : Sticks s.vinodes kids 0 (rel (s.str 0).bytes) d rest) :
    ∃ n : Nat, Vfs.lookup s = .ok (false, d, 1 + n) ∧ rest = (rel (s.str 0).bytes).drop n := by
  rw [lookup_eq]
  exact h.lookupCur_sticks hw (length_rel_le _) h.live_root h.tree.root.1 1

/-- The walk ends, in a vinode of the tree that is no link. -/
theorem Inv.lookup (h : Inv s.vinodes kids R) :
    ∃ (flag : Bool) (i offset : Nat), Vfs.lookup s = .ok (flag, (i : Int), offset) ∧ Live kids i ∧
      (s.vinodes i).link = false := by
  have hroot := h.tree.root.1
  rcases h.wide.walks_or_sticks (rel (s.str 0).bytes) .root with ⟨d, hw⟩ | ⟨d, rest, hs⟩
  · obtain ⟨offset, hl⟩ := h.wide.lookup_walks hw
    exact ⟨true, d, offset, hl, hw.live_end h.wide .root hroot⟩
  · obtain ⟨n, hl, -⟩ := h.wide.lookup_sticks hs
    exact ⟨false, d, 1 + n, hl, hs.live_end h.wide .root hroot⟩

/-- A walk within the tree. -/
theorem Wide.lookupAuto_walks (h : Wide s.vinodes kids R live) (hp : s.str 0 = p)
    (hlen : p.length < tmppathLength) (hw : Walks s.vinodes kids 0 (rel (trim p).bytes) d) :
    lookupAuto s = .ok (d, stripSlash s) := by
  obtain ⟨hv, -⟩ := stripSlash_frame s
  have h' : Wide (stripSlash s).vinodes kids R live := hv ▸ h
  have hw' : Walks (stripSlash s).vinodes kids 0 (rel ((stripSlash s).str 0).bytes) d := by
    rw [hv, (stripSlash_str hp hlen).1]
    exact hw
  obtain ⟨offset, hl⟩ := h'.lookup_walks hw'
  unfold lookupAuto lookupAutoLoop
  dsimp only
  rw [hl, ok_bind]
  rfl

/-- A walk that sticks at a vinode that cannot be populated. -/
theorem Wide.lookupAuto_sticks {rest : List UInt8} (h : Wide s.vinodes kids R live)
    (hp : s.str 0 = p)
    (hlen : p.length < tmppathLength) (hw : Sticks s.vinodes kids 0 (rel (trim p).bytes) d rest)
    (hd : (s.vinodes d).fs = none ∨ (s.vinodes d).child ≠ -1) :
    lookupAuto s = .ok (-1, stripSlash s) := by
  obtain ⟨hv, -⟩ := stripSlash_frame s
  have h' : Wide (stripSlash s).vinodes kids R live := hv ▸ h
  have hw' : Sticks (stripSlash s).vinodes kids 0 (rel ((stripSlash s).str 0).bytes) d rest := by
    rw [hv, (stripSlash_str hp hlen).1]
    exact hw
  obtain ⟨offset, hl, -⟩ := h'.lookup_sticks hw'
  unfold lookupAuto lookupAutoLoop
  dsimp only
  rw [hl, ok_bind]
  dsimp only
  rw [get_nat (h.lt_live (hw.live_end h h.live_root h.tree.root.1).1), ok_bind, hv]
  simp only [Bool.false_eq_true, if_false]
  split
  · rfl
  next hfs =>
    rw [if_pos (hd.resolve_left hfs)]
    rfl

end Lookup

end OsWorkbench.Vfs
