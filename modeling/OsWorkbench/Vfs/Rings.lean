import OsWorkbench.Vfs.Tree

/-!
# The rings of links

`next_link` and `prev_link` join the vinodes that stand for one file or directory. The
invariant: every vinode of the tree is on a ring with exactly one vinode that is no
link, and this one is in the tree as well. Here are the effects of the operations on
single vinodes and on the rings.
-/

namespace OsWorkbench.Vfs

open Ext2 (has typeFile typeDir)
open Lib

/-- `next_link` as a successor. -/
def nextOf (V : Vinodes) (i : Nat) : Nat := (V i).nextLink.toNat

/-- `prev_link` as a predecessor. -/
def prevOf (V : Vinodes) (i : Nat) : Nat := (V i).prevLink.toNat

/-- The vinodes `R` are on rings, and on the ring of each live one there is exactly one
that is no link. -/
structure OnRings (V : Vinodes) (R : Set Nat) (live : Nat → Prop) : Prop where
  rings : Headed (nextOf V) (prevOf V) R live fun i => (V i).link = false
  lt : ∀ {i}, i ∈ R → i < maxVinode
  used : ∀ {i}, i ∈ R → Typed (V i).mode
  links : ∀ i, 0 ≤ (V i).nextLink ∧ 0 ≤ (V i).prevLink

/-- The vinodes that are live on the rings are those of the tree. -/
structure Inv (V : Vinodes) (kids : Nat → List Nat) (R : Set Nat) : Prop
    extends OnRings V R (Live kids) where
  tree : Tree V kids

variable {V W : Vinodes} {kids : Nat → List Nat} {R : Set Nat}

/-! ## Single vinodes -/

section Single

variable {i : Int} {v : Vinode} {f : Vinode → Vinode}

theorem get_eq_ok : V.get i = .ok v ↔ ∃ n : Nat, i = n ∧ n < maxVinode ∧ v = V n := by
  unfold Vinodes.get
  rw [bind_eq_ok]
  constructor
  · rintro ⟨n, hn, h⟩
    cases h
    exact ⟨n, (index_eq_ok.mp hn).1, (index_eq_ok.mp hn).2, rfl⟩
  · rintro ⟨n, hi, hn, rfl⟩
    exact ⟨n, index_eq_ok.mpr ⟨hi, hn⟩, rfl⟩

theorem modify_eq_ok :
    V.modify i f = .ok W ↔
      ∃ n : Nat, i = n ∧ n < maxVinode ∧ W = Function.update V n (f (V n)) := by
  unfold Vinodes.modify
  rw [bind_eq_ok]
  constructor
  · rintro ⟨n, hn, h⟩
    cases h
    exact ⟨n, (index_eq_ok.mp hn).1, (index_eq_ok.mp hn).2, rfl⟩
  · rintro ⟨n, hi, hn, rfl⟩
    exact ⟨n, index_eq_ok.mpr ⟨hi, hn⟩, rfl⟩

theorem get_nat {n : Nat} (hn : n < maxVinode) : V.get n = .ok (V n) :=
  get_eq_ok.mpr ⟨n, rfl, hn, rfl⟩

theorem get_nat_eq {n : Nat} (h : V.get n = .ok v) : v = V n := by
  obtain ⟨m, hm, -, rfl⟩ := get_eq_ok.mp h
  rw [Int.ofNat_inj.mp hm]

theorem modify_nat {n : Nat} (h : V.modify n f = .ok W) :
    n < maxVinode ∧ W = Function.update V n (f (V n)) := by
  obtain ⟨m, hm, hlt, rfl⟩ := modify_eq_ok.mp h
  rw [Int.ofNat_inj.mp hm]
  exact ⟨hlt, rfl⟩

/-- A vinode is free and gets the flag, or there is none. -/
theorem vinodesAlloc_cases {n : Int} (h : vinodesAlloc V = (n, W)) :
    n = -1 ∨ ∃ m : Nat, n = m ∧ m < maxVinode ∧ (V m).mode = 0 ∧
      W = Function.update V m { V m with mode := (V m).mode ||| alloced } := by
  unfold vinodesAlloc at h
  split at h
  next m hm =>
    cases h
    have h1 := List.mem_of_find?_eq_some hm
    have h2 := List.find?_some hm
    exact .inr ⟨m, rfl, List.mem_range.mp h1, by simpa using h2, rfl⟩
  · cases h
    exact .inl rfl

theorem vinodesAlloc_used {n : Nat} (h : vinodesAlloc V = ((n : Int), W)) :
    (W n).mode ≠ 0 ∧ ∀ i, (V i).mode ≠ 0 → (W i).mode ≠ 0 ∧ i ≠ n := by
  obtain ⟨m, hm, -, hfree, rfl⟩ := (vinodesAlloc_cases h).resolve_left (by simp)
  obtain rfl := Int.ofNat_inj.mp hm
  refine ⟨?_, fun i hi => ?_⟩
  · rw [Function.update_self, hfree]
    show (0 : UInt32) ||| alloced ≠ 0
    decide
  · have hin : i ≠ n := fun he => hi (he ▸ hfree)
    rw [Function.update_of_ne hin]
    exact ⟨hi, hin⟩

end Single

/-! ## Links -/

/-- A vinode without its links. -/
def Vinode.core (v : Vinode) : Vinode := { v with nextLink := 0, prevLink := 0 }

/-- A vinode without its links and without its place in the tree. -/
def Vinode.flat (v : Vinode) : Vinode := { v.core with dot := 0, ddot := 0, next := 0, child := 0 }

theorem Vinode.of_flat {v v' : Vinode} {β : Type} (f : Vinode → β) (hf : ∀ v, f v.flat = f v)
    (h : v'.flat = v.flat) : f v' = f v := by
  rw [← hf v', h, hf v]

theorem Vinode.flat_of_core {v v' : Vinode} (h : v'.core = v.core) : v'.flat = v.flat := by
  rw [flat, h, flat]

theorem Vinode.link_of_flat {v v' : Vinode} (h : v'.flat = v.flat) : v'.link = v.link :=
  of_flat link (fun _ => rfl) h

theorem Vinode.of_core {v v' : Vinode} {β : Type} (f : Vinode → β) (hf : ∀ v, f v.core = f v)
    (h : v'.core = v.core) : f v' = f v := by
  rw [← hf v', h, hf v]

theorem SameNode.of_core {v v' : Vinode} (h : v'.core = v.core) : SameNode v v' where
  name := Vinode.of_core Vinode.name (fun _ => rfl) h
  dot := Vinode.of_core Vinode.dot (fun _ => rfl) h
  ddot := Vinode.of_core Vinode.ddot (fun _ => rfl) h
  next := Vinode.of_core Vinode.next (fun _ => rfl) h
  child := Vinode.of_core Vinode.child (fun _ => rfl) h
  link := .inl (Vinode.of_core Vinode.link (fun _ => rfl) h)
  used hu := Vinode.of_core Vinode.mode (fun _ => rfl) h ▸ hu

/-- What a change of the links leaves: all else, and links that are no negative numbers. -/
structure Relinked (V W : Vinodes) (f g : Nat → Nat) : Prop where
  core : ∀ i, (W i).core = (V i).core
  next : nextOf W = f
  prev : prevOf W = g
  links : (∀ i, 0 ≤ (V i).nextLink ∧ 0 ≤ (V i).prevLink) →
    ∀ i, 0 ≤ (W i).nextLink ∧ 0 ≤ (W i).prevLink

theorem addLink_effect {o n : Int} (h : addLink V o n = .ok W) :
    ∃ o' n' : Nat, o = o' ∧ n = n' ∧ o' < maxVinode ∧ n' < maxVinode ∧
      Relinked V W (insertNext (nextOf V) o' n') (insertPrev (nextOf V) (prevOf V) o' n') := by
  simp only [addLink, bind_eq_ok] at h
  obtain ⟨ov, hov, V₁, h₁, V₂, h₂, h₃⟩ := h
  obtain ⟨o', rfl, ho', rfl⟩ := get_eq_ok.mp hov
  obtain ⟨n', rfl, hn', rfl⟩ := modify_eq_ok.mp h₁
  obtain ⟨-, rfl⟩ := modify_nat h₂
  obtain ⟨m, hm, -, rfl⟩ := modify_eq_ok.mp h₃
  have hnm : nextOf V o' = m := by rw [nextOf, hm, Int.toNat_natCast]
  refine ⟨o', n', rfl, rfl, ho', hn', ⟨fun i => ?_, funext fun i => ?_, funext fun i => ?_,
    fun hl i => ?_⟩⟩
  · simp only [Function.update_apply]
    split_ifs <;> simp_all [Vinode.core]
  · simp only [nextOf, insertNext, Function.update_apply]
    split_ifs <;> simp_all
  · rw [insertPrev, hnm]
    simp only [prevOf, Function.update_apply]
    split_ifs <;> simp_all
  · have := hl i
    have := hl o'
    simp only [Function.update_apply]
    split_ifs <;> simp_all

theorem addLink_nat {o n : Nat} (h : addLink V o n = .ok W) :
    Relinked V W (insertNext (nextOf V) o n) (insertPrev (nextOf V) (prevOf V) o n) := by
  obtain ⟨o', n', ho', hn', -, -, hre⟩ := addLink_effect h
  rwa [← Int.ofNat_inj.mp ho', ← Int.ofNat_inj.mp hn'] at hre

theorem removeLink_effect {k : Nat} (h : removeLink V k = .ok W) :
    Relinked V W (removeNext (nextOf V) (prevOf V) k) (removePrev (nextOf V) (prevOf V) k) := by
  simp only [removeLink, bind_eq_ok] at h
  obtain ⟨kv, hkv, V₁, h₁, h₂⟩ := h
  obtain rfl := get_nat_eq hkv
  obtain ⟨p, hp, -, rfl⟩ := modify_eq_ok.mp h₁
  obtain ⟨n, hn, -, rfl⟩ := modify_eq_ok.mp h₂
  have hpv : prevOf V k = p := by rw [prevOf, hp, Int.toNat_natCast]
  have hnx : nextOf V k = n := by rw [nextOf, hn, Int.toNat_natCast]
  refine ⟨fun i => ?_, funext fun i => ?_, funext fun i => ?_, fun hl i => ?_⟩
  · simp only [Function.update_apply]
    split_ifs <;> simp_all [Vinode.core]
  · rw [removeNext, hpv]
    simp only [nextOf, Function.update_apply]
    split_ifs <;> simp_all
  · rw [removePrev, hnx]
    simp only [prevOf, Function.update_apply]
    split_ifs <;> simp_all
  · have := hl i
    have := hl k
    simp only [Function.update_apply]
    split_ifs <;> simp_all

theorem deleteVinode_effect {k : Nat} (h : deleteVinode V k = .ok W) :
    Relinked (Function.update V k { V k with mode := 0 }) W
      (removeNext (nextOf V) (prevOf V) k) (removePrev (nextOf V) (prevOf V) k) := by
  obtain ⟨V₁, h₁, h⟩ := bind_eq_ok.mp h
  obtain ⟨-, rfl⟩ := modify_nat h₁
  have hnext : nextOf (Function.update V k { V k with mode := 0 }) = nextOf V := by
    funext i
    simp only [nextOf, Function.update_apply]
    split_ifs with hi
    · rw [hi]
    · rfl
  have hprev : prevOf (Function.update V k { V k with mode := 0 }) = prevOf V := by
    funext i
    simp only [prevOf, Function.update_apply]
    split_ifs with hi
    · rw [hi]
    · rfl
  have heff := removeLink_effect h
  rwa [hnext, hprev] at heff

/-! ## The invariant -/

/-- The vinodes on rings but for their place in the tree. -/
structure Kept (V W : Vinodes) (R : Set Nat) : Prop where
  link : ∀ {i}, i ∈ R → (W i).link = (V i).link
  used : ∀ {i}, i ∈ R → Typed (V i).mode → Typed (W i).mode
  next : ∀ {i}, i ∈ R → nextOf W i = nextOf V i
  prev : ∀ {i}, i ∈ R → prevOf W i = prevOf V i
  links : (∀ i, 0 ≤ (V i).nextLink ∧ 0 ≤ (V i).prevLink) →
    ∀ i, 0 ≤ (W i).nextLink ∧ 0 ≤ (W i).prevLink

theorem Kept.trans {U : Vinodes} (h : Kept U V R) (h' : Kept V W R) : Kept U W R where
  link hi := (h'.link hi).trans (h.link hi)
  used hi hu := h'.used hi (h.used hi hu)
  next hi := (h'.next hi).trans (h.next hi)
  prev hi := (h'.prev hi).trans (h.prev hi)
  links hl := h'.links (h.links hl)

/-- A vinode gets other places in the tree. -/
theorem Kept.edit (V : Vinodes) (R : Set Nat) {a : Nat} {v : Vinode} (hm : v.mode = (V a).mode)
    (hn : v.nextLink = (V a).nextLink) (hp : v.prevLink = (V a).prevLink) :
    Kept V (Function.update V a v) R := by
  have key : ∀ i, (Function.update V a v i).mode = (V i).mode ∧
      (Function.update V a v i).nextLink = (V i).nextLink ∧
      (Function.update V a v i).prevLink = (V i).prevLink := by
    intro i
    rw [Function.update_apply]
    split_ifs with hi
    · rw [hi]
      exact ⟨hm, hn, hp⟩
    · exact ⟨rfl, rfl, rfl⟩
  refine ⟨fun {i} _ => ?_, fun {i} _ hu => ?_, fun {i} _ => ?_, fun {i} _ => ?_, fun hl i => ?_⟩
  · rw [Vinode.link, (key i).1, Vinode.link]
  · rw [(key i).1]
    exact hu
  · rw [nextOf, (key i).2.1, nextOf]
  · rw [prevOf, (key i).2.2, prevOf]
  · rw [(key i).2.1, (key i).2.2]
    exact hl i

/-- A vinode that is on no ring may be anything. -/
theorem Kept.update (V : Vinodes) {n : Nat} (hn : n ∉ R) {v : Vinode}
    (hv : 0 ≤ v.nextLink ∧ 0 ≤ v.prevLink) : Kept V (Function.update V n v) R := by
  have hne : ∀ {i}, i ∈ R → Function.update V n v i = V i := fun hi =>
    Function.update_of_ne (ne_of_mem_of_not_mem hi hn) ..
  refine ⟨fun hi => ?_, fun hi hu => ?_, fun hi => ?_, fun hi => ?_, fun hl i => ?_⟩
  · rw [hne hi]
  · rwa [hne hi]
  · rw [nextOf, hne hi, nextOf]
  · rw [prevOf, hne hi, prevOf]
  · rw [Function.update_apply]
    split
    · exact hv
    · exact hl i

theorem OnRings.congr {live : Nat → Prop} (h : OnRings V R live) (hk : Kept V W R) :
    OnRings W R live where
  rings := h.rings.congr (fun _ hi => hk.next hi) (fun _ hi => hk.prev hi) fun hi hj => by
    rw [hk.link (h.rings.orbit_mem hi hj)]
  lt := h.lt
  used hi := hk.used hi (h.used hi)
  links := hk.links h.links

/-- A vinode that is not live is freed. -/
theorem OnRings.delete {live : Nat → Prop} {k : Nat} (h : OnRings V R live) (hk : k ∈ R)
    (hd : ¬live k) (hdel : deleteVinode V k = .ok W) : OnRings W (R \ {k}) live := by
  have heff := deleteVinode_effect hdel
  have hcore : ∀ {i}, i ≠ k → (W i).core = (V i).core := fun hi => by
    rw [heff.core, Function.update_of_ne hi]
  constructor
  · rw [heff.next, heff.prev]
    have hrem := h.rings.remove hk hd
    refine hrem.congr (fun _ _ => rfl) (fun _ _ => rfl) fun {i j} hi hj => ?_
    rw [Vinode.of_core Vinode.link (fun _ => rfl) (hcore (hrem.orbit_mem hi hj).2)]
  · exact fun hi => h.lt hi.1
  · intro i hi
    rw [Vinode.of_core Vinode.mode (fun _ => rfl) (hcore hi.2)]
    exact h.used hi.1
  · refine heff.links fun i => ?_
    rw [Function.update_apply]
    split_ifs with hi
    · exact hi ▸ h.links i
    · exact h.links i

/-- A vinode on a ring of its own is added. -/
theorem OnRings.single {live : Nat → Prop} {n : Nat} (h : OnRings V R live) (hn : n ∉ R)
    (hlt : n < maxVinode) (hk : Kept V W R) (hlink : (W n).link = false) (hused : Typed (W n).mode)
    (hnext : nextOf W n = n) (hprev : prevOf W n = n) :
    OnRings W (insert n R) fun i => live i ∨ i = n where
  rings := by
    have hne : ∀ {i}, i ∈ R → i ≠ n := fun hi => ne_of_mem_of_not_mem hi hn
    have h₁ : Headed (nextOf V) (prevOf V) R live fun i => (W i).link = false := h.rings.congr
      (fun _ _ => rfl) (fun _ _ => rfl) fun hi hj => by rw [hk.link (h.rings.orbit_mem hi hj)]
    refine (h₁.single hn hlink).congr ?_ ?_ fun _ _ => Iff.rfl
    · rintro i (rfl | hi)
      · rw [Function.update_self, hnext]
      · rw [Function.update_of_ne (hne hi), hk.next hi]
    · rintro i (rfl | hi)
      · rw [Function.update_self, hprev]
      · rw [Function.update_of_ne (hne hi), hk.prev hi]
  lt := by
    rintro i (rfl | hi)
    · exact hlt
    · exact h.lt hi
  used := by
    rintro i (rfl | hi)
    · exact hused
    · exact hk.used hi (h.used hi)
  links := hk.links h.links

/-- The rings `R` after `n` was put behind `o` do not depend on the other vinodes. -/
theorem Kept.inserted {V₁ : Vinodes} {o n : Nat} (hk : Kept V V₁ R) (ho : o ∈ R)
    (hre : Relinked V₁ W (insertNext (nextOf V₁) o n) (insertPrev (nextOf V₁) (prevOf V₁) o n)) :
    ∀ i ∈ insert n R, nextOf W i = insertNext (nextOf V) o n i ∧
      prevOf W i = insertPrev (nextOf V) (prevOf V) o n i := by
  have hon : nextOf V₁ o = nextOf V o := hk.next ho
  refine fun i hi => ⟨?_, ?_⟩
  · rw [hre.next, insertNext, insertNext, hon]
    simp only [Function.update_apply]
    split_ifs with hio hin
    · rfl
    · rfl
    · exact hk.next (hi.resolve_left hin)
  · rw [hre.prev, insertPrev, insertPrev, hon]
    simp only [Function.update_apply]
    split_ifs with hio hin
    · rfl
    · rfl
    · exact hk.prev (hi.resolve_left hin)

/-- A link is put on the ring of `o`. -/
theorem OnRings.link {live : Nat → Prop} {V₁ : Vinodes} {o n : Nat} (h : OnRings V R live)
    (hn : n ∉ R) (hlt : n < maxVinode) (ho : live o) (hk : Kept V V₁ R)
    (hlink : (V₁ n).link = true) (hused : Typed (V₁ n).mode)
    (hre : Relinked V₁ W (insertNext (nextOf V₁) o n) (insertPrev (nextOf V₁) (prevOf V₁) o n)) :
    OnRings W (insert n R) fun i => live i ∨ i = n where
  rings := by
    have hlW : ∀ i, (W i).link = (V₁ i).link := fun i =>
      Vinode.of_core Vinode.link (fun _ => rfl) (hre.core i)
    have h₁ : Headed (nextOf V) (prevOf V) R live fun i => (W i).link = false := h.rings.congr
      (fun _ _ => rfl) (fun _ _ => rfl)
      fun hi hj => by rw [hlW, hk.link (h.rings.orbit_mem hi hj)]
    have hins := hk.inserted (h.rings.mem ho) hre
    exact (h₁.insert ho hn (by simp [hlW, hlink])).congr (fun i hi => (hins i hi).1)
      (fun i hi => (hins i hi).2) fun _ _ => Iff.rfl
  lt := by
    rintro i (rfl | hi)
    · exact hlt
    · exact h.lt hi
  used := by
    intro i hi
    rw [Vinode.of_core Vinode.mode (fun _ => rfl) (hre.core i)]
    rcases hi with rfl | hi
    · exact hused
    · exact hk.used hi (h.used hi)
  links := hre.links (hk.links h.links)

namespace Inv

variable {n : Nat} {kids' : Nat → List Nat}

theorem live_mem (h : Inv V kids R) {i : Nat} (hi : Live kids i) : i ∈ R := h.rings.mem hi

theorem not_live (h : Inv V kids R) {i : Nat} (hi : i ∉ R) : ¬Live kids i :=
  fun hl => hi (h.live_mem hl)

theorem not_mem_of_free (h : Inv V kids R) {i : Nat} (hi : (V i).mode = 0) : i ∉ R :=
  fun hR => (h.used hR).ne_zero hi

theorem congr (h : Inv V kids R) (hs : ∀ {i}, Live kids i → SameNode (V i) (W i))
    (hk : Kept V W R) : Inv W kids R where
  toOnRings := h.toOnRings.congr hk
  tree := h.tree.congr fun _ hi => hs hi

theorem update (h : Inv V kids R) (hn : n ∉ R) {v : Vinode} (hv : 0 ≤ v.nextLink ∧ 0 ≤ v.prevLink) :
    Inv (Function.update V n v) kids R := by
  refine h.congr (fun {i} hi => ?_) (.update V hn hv)
  rw [Function.update_of_ne (ne_of_mem_of_not_mem (h.live_mem hi) hn)]
  exact SameNode.refl _

/-- A free vinode is found, or there is none. -/
theorem alloc (h : Inv V kids R) {m : Int} (ha : vinodesAlloc V = (m, W)) :
    m = -1 ∨ ∃ n : Nat, m = n ∧ n < maxVinode ∧ n ∉ R ∧ Inv W kids R ∧
      (∀ i, i ≠ n → W i = V i) ∧ (V n).mode = 0 ∧ (W n).mode ≠ 0 := by
  rcases vinodesAlloc_cases ha with hm | ⟨n, rfl, hlt, hfree, hW⟩
  · exact .inl hm
  · have hused := (vinodesAlloc_used ha).1
    subst hW
    exact .inr
      ⟨n, rfl, hlt, h.not_mem_of_free hfree, h.update (h.not_mem_of_free hfree) (h.links n),
      fun i hi => Function.update_of_ne hi .., hfree, hused⟩

/-- A vinode of its own is added to the tree. -/
theorem single (h : Inv V kids R) (hn : n ∉ R) (hlt : n < maxVinode) (hk : Kept V W R)
    (ht : Tree W kids') (hlive : ∀ {i}, Live kids' i ↔ Live kids i ∨ i = n)
    (hlink : (W n).link = false) (hused : Typed (W n).mode)
    (hnext : nextOf W n = n) (hprev : prevOf W n = n) : Inv W kids' (insert n R) where
  tree := ht
  toOnRings := by
    rw [show Live kids' = fun i => Live kids i ∨ i = n from funext fun _ => propext hlive]
    exact h.toOnRings.single hn hlt hk hlink hused hnext hprev

/-- A link is added to the tree and put on the ring of `o`. -/
theorem link {V₁ : Vinodes} {o : Nat} (h : Inv V kids R) (hn : n ∉ R) (hlt : n < maxVinode)
    (ho : Live kids o) (hk : Kept V V₁ R) (ht : Tree V₁ kids')
    (hlive : ∀ {i}, Live kids' i ↔ Live kids i ∨ i = n)
    (hlink : (V₁ n).link = true) (hused : Typed (V₁ n).mode)
    (hre : Relinked V₁ W (insertNext (nextOf V₁) o n) (insertPrev (nextOf V₁) (prevOf V₁) o n)) :
    Inv W kids' (insert n R) where
  tree := ht.congr fun i _ => SameNode.of_core (hre.core i)
  toOnRings := by
    rw [show Live kids' = fun i => Live kids i ∨ i = n from funext fun _ => propext hlive]
    exact h.toOnRings.link hn hlt ho hk hlink hused hre

end Inv

end OsWorkbench.Vfs
