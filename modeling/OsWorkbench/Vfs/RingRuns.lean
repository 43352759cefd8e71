import OsWorkbench.Vfs.Start

/-!
# The rings over whole runs

In every run of careful calls the vinodes of the tree are on rings with exactly one vinode
that is no link, and lookups come to an end. A call that is not careful can leave a link
alone on its ring, and the next lookup of the link does not end.
-/

namespace OsWorkbench.Vfs

open Ext2 (has typeFile typeDir)
open Lib

variable {s t : State} {V : Vinodes}

/-- What lookups and safe changes keep holds in careful runs, if it holds at their start. -/
theorem CarefullyReached.holding {ok : State → Nat → Prop} {fits : Vinodes → Nat → CStr → Prop}
    {P : TreeProp} (hD : Durable ok fits P)
    (hinit : ∀ {dev totalProc before s}, vfsInit dev totalProc before = .ok s →
      ∃ kids R, Holding P s.vinodes kids R)
    (h : CarefullyReached ok fits s) : ∃ kids R, Holding P s.vinodes kids R := by
  induction h with
  | init h => exact hinit h
  | step _ hc hcall ih =>
    obtain ⟨kids, R, h⟩ := ih
    exact hc.holding hD h hcall

/-- In a careful run the rings of the tree are whole, and so the loop along the links ends,
for every vinode of the tree and on every path. -/
theorem careful_rings (h : CarefullyReached SoundAt NoDot s) :
    (∀ i, Reached s.vinodes i → RingAt s.vinodes i ∧
      ∃ r : Nat, followLink s.vinodes maxVinode i = .ok (r : Int) ∧ RealOf s.vinodes i r) ∧
      ∀ p : CStr, ∃ x, lookup { s with tmppath := strcpy s.tmppath p } = .ok x := by
  obtain ⟨kids, R, hold⟩ := h.holding durable_anyTree vfsInit_inv
  refine ⟨fun i hi => ?_, fun p => ?_⟩
  · have hlive := hold.inv.tree.reached_iff.mp hi
    obtain ⟨r, hr, -, hrl, hir⟩ := hold.inv.toOnRings.followLink hlive
    exact ⟨hold.inv.ringAt hlive, r, hr, hir, hrl⟩
  · obtain ⟨flag, i, offset, hl, -⟩ :=
      Inv.lookup (s := { s with tmppath := strcpy s.tmppath p }) hold.inv
    exact ⟨_, hl⟩

/-- What a search among the children finds is in the tree. -/
theorem Reached.findChild {test : CStr → Bool} {fuel i j : Nat} (hi : Reached V i)
    (h : findChild V test fuel (V i).child = .ok (j : Int)) : Reached V j := by
  have hstart : ∀ n : Nat, (V i).child = n → Reached V n := fun n => .child hi
  generalize (V i).child = k at h hstart
  induction fuel generalizing k with
  | zero => cases h
  | succ fuel ih =>
    unfold Vfs.findChild at h
    split at h
    next hk =>
      have he := Except.ok.inj h
      omega
    · obtain ⟨v, hv, h⟩ := bind_eq_ok.mp h
      obtain ⟨n, rfl, -, rfl⟩ := get_eq_ok.mp hv
      have hn := hstart n rfl
      split at h
      · have he := Except.ok.inj h
        rw [← Int.ofNat.inj he]
        exact hn
      · exact ih _ h fun m => .next hn

/-- Whether the access to the path does not end. -/
def hangs (s : State) (path : CStr) : Bool :=
  match call s (.access path 0) with
  | .error .diverges => true
  | _ => false

theorem diverges_of_hangs {path : CStr} (h : hangs s path = true) :
    call s (.access path 0) = .error .diverges := by
  unfold hangs at h
  split at h
  next he => exact he
  · cases h

/-- A file of `/dev` gets a second name. -/
theorem careful_rings_link : ∃ (s : State) (i : Nat), CarefullyReached SoundAt NoDot s ∧
    (s.vinodes i).name = .lit "t" ∧ (s.vinodes i).link = true ∧ RingAt s.vinodes i := by
  have htest : ∃ x, (do
      let s ← vfsInit (fun _ => Ext2.Device.zero Ext2.rdSize) 4 0
      let p ← plan quietLook s (.link (.lit "/dev/tty1") (.lit "/dev/t"))
      let y ← call s (.link (.lit "/dev/tty1") (.lit "/dev/t"))
      return (s, p, y)) = .ok x ∧ (x.2.1.1 == .link 12 3 (.lit "t") &&
        (findChild x.2.2.2.vinodes (fun t => t == .lit "dev") 1025
          (x.2.2.2.vinodes 0).child).toOption == some 3 &&
        (findChild x.2.2.2.vinodes (fun t => t == .lit "t") 1025
          (x.2.2.2.vinodes 3).child).toOption == some 18 &&
        (x.2.2.2.vinodes 18).name == .lit "t" && (x.2.2.2.vinodes 18).link) = true :=
    exists_of_test (by decide +kernel)
  obtain ⟨x, hx, htest⟩ := htest
  obtain ⟨s, hs, hx⟩ := bind_eq_ok.mp hx
  obtain ⟨p, hp, hx⟩ := bind_eq_ok.mp hx
  obtain ⟨y, hy, hx⟩ := bind_eq_ok.mp hx
  cases hx
  simp only [Bool.and_eq_true, beq_iff_eq] at htest
  obtain ⟨⟨⟨⟨hpl, hdev⟩, ht⟩, hname⟩, hlink⟩ := htest
  have hplan := plan_mono (finds_quietLook SoundAt) hp
  have hsafe : p.1.Safe NoDot p.2 := by
    rw [hpl]
    exact show CStr.lit "t" ≠ .lit "." by decide
  have hreach : CarefullyReached SoundAt NoDot y.2 := .step (.init hs) ⟨p.1, p.2, hplan, hsafe⟩ hy
  have h3 : Reached y.2.vinodes 3 := Reached.root.findChild (toOption_eq_some.mp hdev)
  have h18 : Reached y.2.vinodes 18 := h3.findChild (toOption_eq_some.mp ht)
  exact ⟨y.2, 18, hreach, hname, hlink, ((careful_rings hreach).1 18 h18).1⟩

/-- `"/R0"` gets the second name `"/l"` and is unmounted: the link is left alone on its
ring, and its lookup does not end. -/
theorem unmounted_link_hangs : ∃ s₀ s : State, ∃ i : Nat,
    vfsInit (fun _ => Ext2.Device.zero Ext2.rdSize) 4 0 = .ok s₀ ∧
    run step s₀ [.link (.lit "/R0") (.lit "/l"), .unmount (.lit "/R0")] = .ok s ∧
    Reached s.vinodes i ∧ ¬RingAt s.vinodes i ∧
    call s (.access (.lit "/l") 0) = .error .diverges := by
  have htest : ∃ x, (do
      let s₀ ← vfsInit (fun _ => Ext2.Device.zero Ext2.rdSize) 4 0
      let s ← run step s₀ [.link (.lit "/R0") (.lit "/l"), .unmount (.lit "/R0")]
      return (s₀, s)) = .ok x ∧
        ((findChild x.2.vinodes (fun t => t == .lit "l") 1025
          (x.2.vinodes 0).child).toOption == some 18 &&
          nextOf x.2.vinodes 18 == 18 && (x.2.vinodes 18).link &&
          hangs x.2 (.lit "/l")) = true :=
    exists_of_test (by decide +kernel)
  obtain ⟨x, hx, htest⟩ := htest
  obtain ⟨s₀, hs₀, hx⟩ := bind_eq_ok.mp hx
  obtain ⟨s, hs, hx⟩ := bind_eq_ok.mp hx
  cases hx
  simp only [Bool.and_eq_true, beq_iff_eq] at htest
  obtain ⟨⟨⟨hl, hnext⟩, hlink⟩, hhang⟩ := htest
  refine ⟨s₀, s, 18, hs₀, hs, Reached.root.findChild (toOption_eq_some.mp hl), fun hring => ?_,
    diverges_of_hangs hhang⟩
  obtain ⟨r, hr, -⟩ := hring.one
  obtain rfl := orbit_of_fixed hnext hr.1
  exact absurd (hlink.symm.trans hr.2) (by simp)

end OsWorkbench.Vfs
