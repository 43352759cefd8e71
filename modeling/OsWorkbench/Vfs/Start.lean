import OsWorkbench.Vfs.Runs

/-!
# What `vfs_init` leaves

The lookups of the two mounts of `vfs_init` populate nothing, whatever is on the ram
disks, so the vinodes that it leaves are always the same ones.
-/

namespace OsWorkbench.Vfs

open Ext2 (has wrAble rdAble typeFile typeDir)
open Lib

variable {V : Vinodes} {s t : State} {m file par : Int} {p pre name : CStr}

theorem of_test {ε α : Type} {x : Except ε α} {f : α → Bool}
    (h : (match x with | .ok a => f a | .error _ => true) = true) {a : α} (ha : x = .ok a) :
    f a = true := by
  rw [ha] at h
  exact h

/-- What a lookup returns, if it populates nothing. -/
def lookupOn (V : Vinodes) (p : CStr) : Option Int :=
  match lookupCur V (trim p).length (rel (trim p).bytes) vfsRoot 1 with
  | .ok (true, i, _) => some i
  | .ok (false, i, _) =>
    match V.get i with
    | .ok d => if d.fs = none ∨ d.child ≠ -1 then some (-1) else none
    | .error _ => none
  | .error _ => none

theorem guarded_of_lookupOn (ok : State → Nat → Prop) (hp : s.str 0 = p)
    (hlen : p.length < tmppathLength)
    (h : lookupOn s.vinodes p = some m) : guarded ok s = .ok (m, stripSlash s) := by
  have hlook : lookup (stripSlash s) =
      lookupCur s.vinodes (trim p).length (rel (trim p).bytes) vfsRoot 1 := by
    rw [lookup_eq, (stripSlash_frame s).1, (stripSlash_str hp hlen).1]
  unfold guarded guardedLoop
  dsimp only
  unfold lookupOn at h
  rw [hlook]
  split at h
  next i offset hl =>
    obtain rfl := Option.some.inj h
    rw [hl, ok_bind]
    rfl
  next i offset hl =>
    rw [hl, ok_bind]
    dsimp only
    rw [if_neg (by simp), (stripSlash_frame s).1]
    split at h
    next d hd =>
      rw [hd, ok_bind]
      split at h
      next hc =>
        obtain rfl := Option.some.inj h
        split_ifs with hfs hchild
        · rfl
        · rfl
        · exact absurd hc (not_or.mpr ⟨hfs, not_not.mpr (not_not.mp hchild)⟩)
      · cases h
    · cases h
  · cases h

theorem lookupAuto_of_lookupOn (hp : s.str 0 = p) (hlen : p.length < tmppathLength)
    (h : lookupOn s.vinodes p = some m) : lookupAuto s = .ok (m, stripSlash s) :=
  lookupAutoLoop_of_guarded (guarded_of_lookupOn SoundAt hp hlen h)

/-- `lookup_auto`, stopped where it would populate anything. -/
def quietLook (s : State) : Except Fault (Int × State) :=
  match lookupOn s.vinodes (s.str 0) with
  | some m => if (s.str 0).length < tmppathLength then .ok (m, stripSlash s) else .error .badAccess
  | none => .error .diverges

theorem finds_quietLook (ok : State → Nat → Prop) : Finds quietLook (guarded ok) := by
  intro s x h
  unfold quietLook at h
  split at h
  next m hl =>
    split at h
    next hlen =>
      cases h
      exact guarded_of_lookupOn ok rfl hlen hl
    · cases h
  · cases h

/-- The same for a parent, whose path ends in front of the last item. -/
theorem lookupAuto_parent (hp : s.str 0 = p) (hlen : p.length < tmppathLength)
    (hs : Splits p pre name)
    (h : lookupOn s.vinodes pre = some m) :
    ∃ t, lookupAuto (cutTmp s pre.length) = .ok (m, t) ∧ t.vinodes = s.vinodes ∧
      t.str (pre.length + 1) = name := by
  have hplen := hs.length
  obtain ⟨h0, h1⟩ := cutTmp_str hp hlen (show pre.length < p.length by omega)
  rw [hs.take] at h0
  rw [hs.drop] at h1
  have hlt : pre.length < tmppathLength := by omega
  refine ⟨_, lookupAuto_of_lookupOn (s := cutTmp s pre.length) h0 hlt h, (stripSlash_frame _).1, ?_⟩
  have htmp := (stripSlash_str h0 hlt).2
  rw [← h1, State.str, State.str]
  congr 1
  funext i
  exact htmp _ (by omega)

/-! ## The mounts -/

/-- The change that `vfs_mount` makes to the vinodes. -/
def mountVinodes (V : Vinodes) (file par : Int) (name : CStr) : Except Fault Vinodes := do
  let f ← V.get file
  let x ← appendDir V par name (typeDir ||| unmntAble) f.fsType f.fs
  let V ← x.2.modify file fun v => { v with mode := v.mode &&& ~~~mntAble }
  let V ← V.modify x.1 fun v => { v with linkcnt := file }
  mountRidx V file x.1

theorem exec_mount (s : State) (file par : Int) (name : CStr) :
    exec s (.mount file par name) = do
      let V ← mountVinodes s.vinodes file par name
      return (0, { s with vinodes := V }) := by
  simp only [exec, mountVinodes, bind_assoc]

theorem planMount_of_lookupOn {filename dirname : CStr} {v : Vinode}
    (hf : filename.length < tmppathLength)
    (hd : dirname.length < tmppathLength) (hs : Splits dirname pre name)
    (hfile : lookupOn s.vinodes filename = some file) (hne : file ≠ -1)
    (hv : s.vinodes.get file = .ok v)
    (hmode : v.mode &&& (typeFile ||| mntAble) = typeFile ||| mntAble)
    (hdir : lookupOn s.vinodes dirname = some (-1)) (hpre : lookupOn s.vinodes pre = some par) :
    ∃ t, t.vinodes = s.vinodes ∧
      planMount lookupAuto s filename dirname = .ok (.mount file par name, t) := by
  have hlook : ∀ {u : State} {q : CStr} {i : Int}, u.vinodes = s.vinodes →
    q.length < tmppathLength →
      lookupOn s.vinodes q = some i → ∃ w, w.vinodes = s.vinodes ∧
        (strcpyTmp u q >>= lookupAuto) = .ok (i, w) := by
    intro u q i hu hq hi
    rw [strcpyTmp_eq_ok.mpr ⟨hq, rfl⟩, ok_bind]
    refine ⟨_, ?_, lookupAuto_of_lookupOn (strcpy_str u hq) hq (by rwa [← hu] at hi)⟩
    exact (stripSlash_frame _).1.trans hu
  obtain ⟨s₁, hs₁, h₁⟩ := hlook rfl hf hfile
  obtain ⟨s₂, hs₂, h₂⟩ := hlook hs₁ hd hdir
  obtain ⟨s₃, hs₃, h₃⟩ := hlook hs₂ hf hfile
  have hstr := strcpy_str s₃ hd
  obtain ⟨t, h₄, ht, hname⟩ :=
    lookupAuto_parent (s := { s₃ with tmppath := strcpy s₃.tmppath dirname })
    hstr hd hs (by rwa [← hs₃] at hpre)
  refine ⟨t, ht.trans hs₃, ?_⟩
  have ha₁ : planAccess lookupAuto s filename (typeFile ||| mntAble) = .ok (0, s₁) := by
    obtain ⟨u, hu, hl⟩ := bind_eq_ok.mp h₁
    rw [planAccess, hu, ok_bind, hl, ok_bind]
    dsimp only
    rw [if_neg hne, hs₁, hv, ok_bind, if_neg (not_not.mpr hmode)]
    rfl
  have ha₂ : planAccess lookupAuto s₁ dirname typeDir = .ok (1, s₂) := by
    obtain ⟨u, hu, hl⟩ := bind_eq_ok.mp h₂
    rw [planAccess, hu, ok_bind, hl, ok_bind]
    dsimp only
    rw [if_pos rfl]
    rfl
  obtain ⟨u, hu, hl⟩ := bind_eq_ok.mp h₃
  rw [planMount, ha₁, ok_bind]
  dsimp only
  rw [if_neg (by simp), ha₂, ok_bind]
  dsimp only
  rw [if_neg (by simp), hu, ok_bind, hl, ok_bind, strcpyTmp_eq_ok.mpr ⟨hd, rfl⟩, ok_bind,
    hs.lastItemLen_eq, ok_bind]
  dsimp only
  rw [hs.offset_eq, h₄, ok_bind]
  dsimp only
  rw [hname]
  rfl

/-- Whether the lookups of `vfs_mount` populate nothing, and the tests let it go on. -/
def mountsOn (V : Vinodes) (filename dirname pre : CStr) (file par : Nat) : Bool :=
  lookupOn V filename == some (file : Int) &&
    (V file).mode &&& (typeFile ||| mntAble) == typeFile ||| mntAble && decide (file < maxVinode) &&
    lookupOn V dirname == some (-1) && lookupOn V pre == some (par : Int)

theorem vfsMount_of_mountsOn {filename dirname : CStr} {file par r : Nat}
    (hf : filename.length < tmppathLength) (hd : dirname.length < tmppathLength)
    (hs : Splits dirname pre name) (htest : mountsOn s.vinodes filename dirname pre file par = true)
    (h : vfsMount s filename dirname = .ok (r, t)) :
    mountVinodes s.vinodes file par name = .ok t.vinodes := by
  simp only [mountsOn, Bool.and_eq_true, beq_iff_eq, decide_eq_true_eq] at htest
  obtain ⟨⟨⟨⟨hfile, hmode⟩, hlt⟩, hdir⟩, hpre⟩ := htest
  obtain ⟨u, hu, hplan⟩ :=
    planMount_of_lookupOn hf hd hs hfile (by omega) (get_nat hlt) hmode hdir hpre
  rw [vfsMount_eq, hplan, ok_bind, exec_mount, hu] at h
  obtain ⟨V, hV, h⟩ := bind_eq_ok.mp h
  cases h
  exact hV

/-- The vinodes after `vfs_init`. -/
def initVinodes : Except Fault Vinodes := do
  let V ← buildTree
  let V ← mountVinodes V 10 0 (.lit "R0")
  mountVinodes V 11 4 (.lit "R1")

theorem splits_R0 : Splits (.lit "/R0") (.lit "") (.lit "R0") :=
  ⟨by decide, by decide, by decide, by decide⟩

theorem splits_R1 : Splits (.lit "/mnt/R1") (.lit "/mnt") (.lit "R1") :=
  ⟨by decide, by decide, by decide, by decide⟩

theorem mountsOn_R0 (h : buildTree = .ok V) :
    mountsOn V (.lit "/dev/ramdisk0") (.lit "/R0") (.lit "") 10 0 = true :=
  of_test (f := fun V => mountsOn V (.lit "/dev/ramdisk0") (.lit "/R0") (.lit "") 10 0)
    (by decide +kernel) h

theorem mountsOn_R1 (h : buildTree >>= (fun V => mountVinodes V 10 0 (.lit "R0")) = .ok V) :
    mountsOn V (.lit "/dev/ramdisk1") (.lit "/mnt/R1") (.lit "/mnt") 11 4 = true :=
  of_test (f := fun V => mountsOn V (.lit "/dev/ramdisk1") (.lit "/mnt/R1") (.lit "/mnt") 11 4)
    (by decide +kernel) h

/-- The two mounts, one after the other. -/
theorem vfsInit_split {dev : Fin 2 → Ext2.Device} {totalProc : Nat} {before : UInt8}
    (h : vfsInit dev totalProc before = .ok s) :
    ∃ V₀ V₁, buildTree = .ok V₀ ∧ mountVinodes V₀ 10 0 (.lit "R0") = .ok V₁ ∧
      mountVinodes V₁ 11 4 (.lit "R1") = .ok s.vinodes := by
  simp only [vfsInit] at h
  obtain ⟨d₀, -, h⟩ := bind_eq_ok.mp h
  obtain ⟨d₁, -, h⟩ := bind_eq_ok.mp h
  obtain ⟨V₀, hV₀, h⟩ := bind_eq_ok.mp h
  obtain ⟨⟨r₁, s₁⟩, h₁, h⟩ := bind_eq_ok.mp h
  obtain ⟨⟨r₂, s₂⟩, h₂, h⟩ := bind_eq_ok.mp h
  cases h
  have hmount₀ := vfsMount_of_mountsOn (by decide) (by decide) splits_R0 (mountsOn_R0 hV₀) h₁
  have hV₁ : buildTree >>= (fun V => mountVinodes V 10 0 (.lit "R0")) = .ok s₁.vinodes := by
    rw [hV₀, ok_bind]
    exact hmount₀
  exact ⟨V₀, s₁.vinodes, hV₀, hmount₀,
    vfsMount_of_mountsOn (by decide) (by decide) splits_R1 (mountsOn_R1 hV₁) h₂⟩

/-! ## The invariant -/

section Invariant

variable {kids : Nat → List Nat} {R : Set Nat} {ok : State → Nat → Prop}
  {fits : Vinodes → Nat → CStr → Prop} {P : TreeProp}

theorem found_of_lookupOn (s : State) (h : Inv V kids R) (hlen : p.length < tmppathLength)
    (hl : lookupOn V p = some m) : Found V kids m := by
  have htrim : (trim p).length < tmppathLength := (length_trim_le p).trans_lt hlen
  have hstr : State.str { s with vinodes := V, tmppath := strcpy s.tmppath (trim p) } 0 = trim p :=
    strcpy_str { s with vinodes := V } htrim
  obtain ⟨flag, i, offset, hlook, hi, hil⟩ :=
    Inv.lookup (s := { s with vinodes := V, tmppath := strcpy s.tmppath (trim p) }) h
  rw [lookup_eq, hstr] at hlook
  unfold lookupOn at hl
  rw [hlook] at hl
  cases flag with
  | true =>
    obtain rfl := Option.some.inj hl
    exact .inr ⟨i, rfl, hi, hil⟩
  | false =>
    dsimp only at hl
    rw [get_nat (h.tree.lt hi)] at hl
    dsimp only at hl
    split at hl
    · obtain rfl := Option.some.inj hl
      exact .inl rfl
    · cases hl

theorem Holding.mountVinodes {W : Vinodes} (s : State) (hD : Durable ok fits P)
    (h : Holding P V kids R) (hpar : Found V kids par) (hfit : fits V par.toNat name)
    (hm : Vfs.mountVinodes V file par name = .ok W) : ∃ kids' R', Holding P W kids' R' := by
  have hx : Vfs.exec { s with vinodes := V } (.mount file par name) =
      .ok (0, { s with vinodes := W }) := by
    rw [exec_mount, hm]
    rfl
  exact Holding.mount (s := { s with vinodes := V }) hD h hpar hfit hx

end Invariant

/-- The names that do not say `"."`. -/
def NoDot (_ : Vinodes) (_ : Nat) (name : CStr) : Prop := name ≠ .lit "."

/-- Nothing at all. -/
def anyTree : TreeProp := fun _ _ _ => True

theorem durable_anyTree : Durable SoundAt NoDot anyTree where
  sound h := h
  step _ _ _ := trivial
  noDot _ _ _ _ h := h
  same _ _ := trivial
  grow _ _ _ := trivial
  prune _ _ _ _ _ := trivial

theorem vfsInit_inv {dev : Fin 2 → Ext2.Device} {totalProc : Nat} {before : UInt8}
    (h : vfsInit dev totalProc before = .ok s) : ∃ kids R, Holding anyTree s.vinodes kids R := by
  obtain ⟨V₀, V₁, h₀, h₁, h₂⟩ := vfsInit_split h
  obtain ⟨kids, R, hinv, hfull⟩ := buildTree_inv h₀
  obtain ⟨kids₁, R₁, hold₁⟩ := Holding.mountVinodes s durable_anyTree ⟨hinv, hfull, trivial⟩
    (.inr ⟨0, rfl, .root, hinv.tree.root.1⟩) (show CStr.lit "R0" ≠ .lit "." by decide) h₁
  have hV₁ : buildTree >>= (fun V => mountVinodes V 10 0 (.lit "R0")) = .ok V₁ := by
    rw [h₀, ok_bind]
    exact h₁
  have hmnt := mountsOn_R1 hV₁
  simp only [mountsOn, Bool.and_eq_true, beq_iff_eq] at hmnt
  have hpar := found_of_lookupOn s hold₁.inv (by decide) hmnt.2
  exact Holding.mountVinodes s durable_anyTree hold₁ hpar
    (show CStr.lit "R1" ≠ .lit "." by decide) h₂

end OsWorkbench.Vfs
