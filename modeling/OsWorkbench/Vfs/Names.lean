import OsWorkbench.Vfs.Failing
import OsWorkbench.Vfs.Paths

/-!
# Names

A name is a directory and the name of one of its children. Paths that lead to the
directory without populating anything give the name as a string, and the lookup of such
a string depends on the child of that name alone.
-/

namespace OsWorkbench.Vfs

open Lib

variable {V W : Vinodes} {kids kids' : Nat → List Nat} {R : Set Nat} {live : Nat → Prop}

/-- The walk along the path, which populates nothing, ends in `d`. -/
def LeadsTo (V : Vinodes) (path : CStr) (d : Nat) : Prop :=
  ∃ offset : Nat, lookupCur V path.length (rel path.bytes) vfsRoot 1 = .ok (true, (d : Int), offset)

/-- A directory and the name of a child. -/
abbrev Name := Nat × CStr

/-- The path is one of the strings for the name. -/
def IsPath (V : Vinodes) (p : CStr) (a : Name) : Prop :=
  ∃ pre, Splits p pre a.2 ∧ LeadsTo V pre a.1

/-- The child of that name, or `-1`. -/
def entry (V : Vinodes) (a : Name) : Except Fault Int :=
  findChild V (fun t => t == a.2) (maxVinode + 1) (V a.1).child

theorem Wide.leadsTo_iff (h : Wide V kids R live) {path : CStr} {d : Nat} :
    LeadsTo V path d ↔ Walks V kids 0 (rel path.bytes) d := by
  have hroot := h.tree.root.1
  constructor
  · rintro ⟨offset, hl⟩
    rcases h.walks_or_sticks (rel path.bytes) h.live_root with ⟨e, hw⟩ | ⟨e, rest, hs⟩
    · obtain ⟨offset', hl'⟩ := h.lookupCur_walks hw (length_rel_le _) h.live_root hroot 1
      have he := hl.symm.trans hl'
      cases he
      exact hw
    · obtain ⟨n, hl', -⟩ := h.lookupCur_sticks hs (length_rel_le _) h.live_root hroot 1
      have he := hl.symm.trans hl'
      cases he
  · intro hw
    exact h.lookupCur_walks hw (length_rel_le _) h.live_root hroot 1

theorem Wide.entry_eq (h : Wide V kids R live) {a : Name} (hd : live a.1)
    (hl : (V a.1).link = false) :
    entry V a = .ok (orNone (childNamed V kids a.1 a.2)) := h.findChild hd hl _

/-! ## Lookups of names -/

section Lookups

variable {s : State} {p pre : CStr} {a : Name} {d : Nat}

theorem Wide.walks_path (h : Wide V kids R live) (hs : Splits p pre a.2) (hpre : LeadsTo V pre a.1)
    {k r : Nat} (hk : childNamed V kids a.1 a.2 = some k) (hr : RealOf V k r) :
    Walks V kids 0 (rel p.bytes) r := by
  have hw := h.leadsTo_iff.mp hpre
  have hname := walks_name hs.name_ne hs.name_slash hk hr
  rcases hs.rel_eq with ⟨-, heq, hnil⟩ | ⟨hne, hlast, heq⟩
  · rw [hnil] at hw
    rw [heq, ← hw.nil_eq]
    exact hname
  · rw [heq]
    exact hw.append hne hlast hname

theorem Wide.sticks_path (h : Wide V kids R live) (hs : Splits p pre a.2) (hpre : LeadsTo V pre a.1)
    (hk : childNamed V kids a.1 a.2 = none) : Sticks V kids 0 (rel p.bytes) a.1 a.2.bytes := by
  have hw := h.leadsTo_iff.mp hpre
  have hname := sticks_name hs.name_ne hs.name_slash hk
  rcases hs.rel_eq with ⟨-, heq, hnil⟩ | ⟨hne, hlast, heq⟩
  · rw [hnil] at hw
    have hd : a.1 = 0 := hw.nil_eq
    rw [heq, hd]
    rwa [hd] at hname
  · rw [heq]
    exact hw.sticks hne hlast hname

/-- The lookup of a path in `tmppath`. -/
theorem Wide.lookupAuto_path (h : Wide s.vinodes kids R live) (hp : s.str 0 = p)
    (hlen : p.length < tmppathLength) (hlast : p.bytes.getLast? ≠ some slash)
    (hw : Walks s.vinodes kids 0 (rel p.bytes) d) : lookupAuto s = .ok (d, stripSlash s) :=
  h.lookupAuto_walks hp hlen (by rwa [trim_of_ne hlast])

theorem resolve_eq (hlen : p.length < tmppathLength) :
    resolve s p = lookupAuto { s with tmppath := strcpy s.tmppath p } := by
  rw [resolve, strcpyTmp_eq_ok.mpr ⟨hlen, rfl⟩, ok_bind]

theorem strcpy_str (s : State) (hlen : p.length < tmppathLength) :
    State.str { s with tmppath := strcpy s.tmppath p } 0 = p :=
  strcpyTmp_str (strcpyTmp_eq_ok.mpr ⟨hlen, rfl⟩)

/-- The name is found. -/
theorem Wide.resolve_found (h : Wide s.vinodes kids R live) (hlen : p.length < tmppathLength)
    (hp : IsPath s.vinodes p a) {k r : Nat} (hk : childNamed s.vinodes kids a.1 a.2 = some k)
    (hr : RealOf s.vinodes k r) :
    ∃ t, resolve s p = .ok ((r : Int), t) ∧ t.vinodes = s.vinodes := by
  obtain ⟨pre, hs, hpre⟩ := hp
  rw [resolve_eq hlen]
  have hw : Wide (State.vinodes { s with tmppath := strcpy s.tmppath p }) kids R live := h
  exact ⟨_, hw.lookupAuto_path (strcpy_str s hlen) hlen hs.last (h.walks_path hs hpre hk hr),
    (stripSlash_frame _).1⟩

/-- The name is not there. -/
theorem Wide.resolve_missing (h : Wide s.vinodes kids R live) (hlen : p.length < tmppathLength)
    (hp : IsPath s.vinodes p a) (hk : childNamed s.vinodes kids a.1 a.2 = none)
    (hfull : (s.vinodes a.1).child ≠ -1) :
    ∃ t, resolve s p = .ok (-1, t) ∧ t.vinodes = s.vinodes := by
  obtain ⟨pre, hs, hpre⟩ := hp
  rw [resolve_eq hlen]
  have hw : Wide (State.vinodes { s with tmppath := strcpy s.tmppath p }) kids R live := h
  have hsticks : Sticks s.vinodes kids 0 (rel (trim p).bytes) a.1 a.2.bytes := by
    rw [trim_of_ne hs.last]
    exact h.sticks_path hs hpre hk
  exact ⟨_, hw.lookupAuto_sticks (strcpy_str s hlen) hlen hsticks (.inr hfull),
    (stripSlash_frame _).1⟩

/-- The lookup of the parent of a path in `tmppath` leaves the last item in place. -/
theorem Wide.lookup_parent {name : CStr} (h : Wide s.vinodes kids R live) (hp : s.str 0 = p)
    (hlen : p.length < tmppathLength) (hs : Splits p pre name) (hpre : LeadsTo s.vinodes pre d) :
    ∃ t, lookupAuto (cutTmp s pre.length) = .ok ((d : Int), t) ∧ t.vinodes = s.vinodes ∧
      t.str (pre.length + 1) = name := by
  have hplen := hs.length
  obtain ⟨h0, h1⟩ := cutTmp_str hp hlen (show pre.length < p.length by omega)
  rw [hs.take] at h0
  rw [hs.drop] at h1
  have hlt : pre.length < tmppathLength := by omega
  refine ⟨_, Wide.lookupAuto_path (s := cutTmp s pre.length) h h0 hlt hs.pre_last
    (h.leadsTo_iff.mp hpre), (stripSlash_frame _).1, ?_⟩
  have htmp := (stripSlash_str h0 hlt).2
  rw [← h1, State.str, State.str]
  congr 1
  funext i
  exact htmp _ (by omega)

end Lookups

/-! ## Children found by name -/

section Find

variable {p n x d : Nat} {test : CStr → Bool}

/-- The test is passed by one name at most. -/
def OneName (test : CStr → Bool) : Prop := ∀ {a b}, test a = true → test b = true → a = b

theorem oneName_itemMatch (path : List UInt8) (len : Nat) :
    OneName fun name => itemMatch name path len := by
  intro a b ha hb
  simp only [itemMatch, beq_iff_eq] at ha hb
  exact CStr.ext (ha.trans hb.symm)

theorem oneName_beq (name : CStr) : OneName fun t => t == name := by
  intro a b ha hb
  exact (beq_iff_eq.mp ha).trans (beq_iff_eq.mp hb).symm

theorem find_congr {l : List Nat} (h : ∀ i ∈ l, (W i).name = (V i).name) :
    (l.find? fun j => test (W j).name) = l.find? fun j => test (V j).name := by
  induction l with
  | nil => rfl
  | cons a l ih =>
    rw [List.find?_cons, List.find?_cons, h a (by simp), ih fun i hi => h i (by simp [hi])]

/-- Only a new child can be found that was not found before. -/
theorem find_growKids (hn : ¬Live kids n) (hd : Live kids d)
    (hname : ∀ {i}, Live kids i → (W i).name = (V i).name) :
    ((growKids kids p n d).find? fun j => test (W j).name) =
      ((kids d).find? fun j => test (V j).name).or
        (if d = p ∧ test (W n).name = true then some n else none) := by
  have hold : ((kids d).find? fun j => test (W j).name) = (kids d).find? fun j => test (V j).name :=
    find_congr fun i hi => hname (.kid hd hi)
  by_cases hdp : d = p
  · subst hdp
    rw [growKids_parent, List.find?_append, hold, List.find?_cons, List.find?_nil]
    simp only [true_and]
    congr 1
    split <;> simp_all
  · rw [growKids_other hdp (ne_of_live hd hn), hold, if_neg fun h => hdp h.1, Option.or_none]

theorem find_erase {l : List Nat} (ht : OneName test) (hnd : (l.map fun j => (V j).name).Nodup) :
    ((l.erase x).find? fun j => test (V j).name) =
      if (l.find? fun j => test (V j).name) = some x then none
      else l.find? fun j => test (V j).name := by
  induction l with
  | nil => simp
  | cons a l ih =>
    rw [List.map_cons, List.nodup_cons] at hnd
    obtain ⟨hal, hnd⟩ := hnd
    have hmem : ∀ {j}, j ∈ l → (V j).name ≠ (V a).name := fun hj he =>
      hal (he ▸ List.mem_map.mpr ⟨_, hj, rfl⟩)
    by_cases hax : a = x
    · subst hax
      rw [List.erase_cons_head, List.find?_cons]
      cases hta : test (V a).name with
      | true =>
        rw [if_pos rfl, List.find?_eq_none]
        exact fun j hj htj => hmem hj (ht htj hta)
      | false =>
        dsimp only
        rw [if_neg fun hf => hmem (List.mem_of_find?_eq_some hf) rfl]
    · rw [List.erase_cons_tail (by simpa using hax), List.find?_cons, List.find?_cons]
      cases hta : test (V a).name with
      | true =>
        dsimp only
        rw [if_neg (by simpa using hax)]
      | false => exact ih hnd

/-- Only the removed child is found no more. -/
theorem find_pruneKids (h : Tree V kids) (hp : Live kids p) (hx : x ∈ kids p) (hd : Live kids d)
    (ht : OneName test) (hnd : ((kids d).map fun j => (V j).name).Nodup)
    (hname : ∀ {i}, i ∈ pruneKids kids p x d → (W i).name = (V i).name) :
    ((pruneKids kids p x d).find? fun j => test (W j).name) =
      if ((kids d).find? fun j => test (V j).name) = some x then none
      else (kids d).find? fun j => test (V j).name := by
  rw [find_congr fun i hi => hname hi]
  by_cases hdp : d = p
  · rw [hdp, pruneKids_parent]
    exact find_erase ht (hdp ▸ hnd)
  · rw [pruneKids_other hdp,
      if_neg fun hf => hdp (h.parent hd hp (List.mem_of_find?_eq_some hf) hx)]

end Find

theorem Walks.kids_ne {r e : Nat} {path : List UInt8} (hw : Walks V kids r path e)
    (he : kids e ≠ []) : kids r ≠ [] := by
  cases hw with
  | done => exact he
  | step _ hk _ _ => exact List.ne_nil_of_mem (childFor_mem hk)

/-- A walk to a directory with children passes through such directories only. -/
theorem Walks.transfer (h : Wide V kids R live)
    (hstep : ∀ {cur k r path}, Live kids cur → childFor V kids cur path = some k → RealOf V k r →
      kids r ≠ [] → childFor W kids' cur path = some k ∧ RealOf W k r)
    {cur e : Nat} {path : List UInt8} (hw : Walks V kids cur path e) (hcur : live cur)
    (he : kids e ≠ []) : Walks W kids' cur path e := by
  induction hw with
  | done cur => exact .done cur
  | @step cur k r e path hne hk hr hrest ih =>
    obtain ⟨hk', hr'⟩ := hstep (h.kid hcur (childFor_mem hk)).1 hk hr (hrest.kids_ne he)
    exact .step hne hk' hr' (ih (h.realOf_live (h.live_kid hcur hk) hr) he)

end OsWorkbench.Vfs
