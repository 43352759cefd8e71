import OsWorkbench.Ext2.Refusals
import OsWorkbench.Vfs.Image

/-!
# Calls on paths that cannot be served

A call whose path has no parent, ends in a slash or comes when all vinodes are in use
ought to return an error and to change nothing, apart from the directories that its
lookups populate. The calls have no test for this: they return an error exactly when
one of the tests they do have stops them, and otherwise they go on with the vinode `-1`
or with an empty name.
-/

namespace OsWorkbench.Vfs

open Ext2 (has wrAble rdAble typeFile typeDir)

/-! ## Lookups -/

/-- The states reached from `s` by lookups. `tmppath`, the byte in front of it and the
buffers of the volumes are no part of the tree and of the images. -/
inductive Looked (s : State) : State → Prop
  | refl : Looked s s
  | buffers {t t' : State} : Looked s t → t'.vinodes = t.vinodes → t'.totalProc = t.totalProc →
      (∀ k, (t'.disks k).dev = (t.disks k).dev) → Looked s t'
  | lookup {t t' : State} {i : Int} : Looked s t → lookupAuto t = .ok (i, t') → Looked s t'

theorem Looked.image {s t : State} (h : Looked s t) : SameImage s t := by
  induction h with
  | refl => exact fun _ => rfl
  | buffers _ _ _ hd ih => exact ih.trans hd
  | lookup _ hl ih => exact ih.trans (lookupAutoLoop_image hl)

/-! ## Calls that are stopped -/

/-- `strcpy(tmppath, path)` and `lookup_auto(tmppath)`. -/
def resolve (s : State) (path : CStr) : Except Fault (Int × State) := do
  let s ← strcpyTmp s path
  lookupAuto s

/-- The part of the path in front of its last slash. -/
def parentPath (path : CStr) : CStr := path.take (vfsHelpGetpathlen path)

/-- The path is found, after the directories on the way to it were populated. -/
def Resolves (s : State) (path : CStr) : Prop := ∃ i t, resolve s path = .ok (i, t) ∧ i ≠ -1

/-- The paths that a call is given. -/
def Call.paths : Call → List CStr
  | .access path _ => [path]
  | .mount filename dirname => [filename, dirname]
  | .unmount path => [path]
  | .create path => [path]
  | .remove path => [path]
  | .link oldpath newpath => [oldpath, newpath]
  | .unlink path => [path]

/-- The calls that add and remove vinodes by a path of their own. -/
def Call.Changes : Call → Prop
  | .access _ _ => False
  | .unmount _ => False
  | _ => True

/-- A path of the call has no parent or ends in a slash, or there is no free vinode. -/
def Unserved (s : State) (c : Call) : Prop :=
  c.Changes ∧
    ((∃ path ∈ c.paths, ¬Resolves s (parentPath path) ∨ path.bytes.getLast? = some slash) ∨
      ∀ i, i < maxVinode → (s.vinodes i).mode ≠ 0)

/-- The call returns an error and changes nothing but what its lookups populate. -/
def Intact (s : State) (c : Call) : Prop :=
  ∃ r t, call s c = .ok (r, t) ∧ r ≠ 0 ∧ Looked s t ∧ SameImage s t

/-- The parent of the path is looked up and is a vinode with the property `P`. -/
def ParentIs (s : State) (offset : Nat) (P : State → Vinode → Prop) : Prop :=
  ∃ par t p, lookupAuto (cutTmp s offset) = .ok (par, t) ∧ t.vinodes.get par = .ok p ∧ P t p

/-- The directory on the volume has no such entry, or that of a directory which is not empty. -/
def Refused (offset : Nat) (s : State) (d : Vinode) : Prop :=
  ∃ k, d.fs = some (.ramdisk k) ∧
    Ext2.Refused (s.disks k).dev d.ridx (s.str (offset + 1))
      (if 46 ∈ (s.str (offset + 1)).bytes then typeFile else typeDir)

/-- A test of the call applies. -/
def Stopped (s : State) : Call → Prop
  | .access _ _ => False
  | .unmount _ => False
  -- the file cannot be mounted, or the directory is there already
  | .mount filename dirname => ∃ r t, vfsAccess s filename (typeFile ||| mntAble) = .ok (r, t) ∧
      (r ≠ 0 ∨ ∃ t', vfsAccess t dirname typeDir = .ok (0, t'))
  -- the path is empty, or the parent is no directory of a volume
  | .create path => path.length = 0 ∨
      ∃ t, strcpyTmp s path = .ok t ∧
        ParentIs t (vfsHelpGetpathlen path) fun _ d => d.fsType ≠ .ext2fs
  -- the same, or the entry is not there or is that of a directory with entries
  | .remove path => path.length = 0 ∨
      ∃ i t, resolve s path = .ok (i, t) ∧
        ParentIs t (vfsHelpGetpathlen path) fun t d =>
          d.fsType ≠ .ext2fs ∨ Refused (vfsHelpGetpathlen path) t d
  -- the old path is not there, or the new one is
  | .link oldpath newpath => ∃ i t, resolve s oldpath = .ok (i, t) ∧
      (i = -1 ∨ ∃ j t', resolve t newpath = .ok (j, t') ∧ j ≠ -1)
  -- the parent has no child of that name
  | .unlink path => ∃ t n, strcpyTmp s path = .ok t ∧ lastItemLen path = .ok n ∧
      ParentIs t (path.length - n - 1) fun t p =>
        findChild t.vinodes (fun name => name == t.str (path.length - n - 1 + 1)) (maxVinode + 1)
            p.child =
          .ok (-1)

section Stopped

variable {s t : State} {path : CStr} {i : Int} {r : Nat}

theorem Looked.strcpyTmp {u : State} (hl : Looked u s) (h : strcpyTmp s path = .ok t) :
    Looked u t := by
  obtain ⟨_, -, h⟩ := bind_eq_ok.mp h
  cases h
  exact hl.buffers rfl rfl fun _ => rfl

theorem Looked.cutTmp {u : State} (hl : Looked u s) (offset : Nat) : Looked u (cutTmp s offset) :=
  hl.buffers rfl rfl fun _ => rfl

theorem Looked.resolve {u : State} (hl : Looked u s) (h : resolve s path = .ok (i, t)) :
    Looked u t := by
  obtain ⟨s₁, h₁, h⟩ := bind_eq_ok.mp h
  exact (hl.strcpyTmp h₁).lookup h

theorem Looked.vfsAccess {u : State} {mode : UInt32} (hl : Looked u s)
    (h : vfsAccess s path mode = .ok (r, t)) : Looked u t := by
  simp only [Vfs.vfsAccess] at h
  obtain ⟨s₁, h₁, h⟩ := bind_eq_ok.mp h
  obtain ⟨⟨i, s₂⟩, h₂, h⟩ := bind_eq_ok.mp h
  have hl₂ := (hl.strcpyTmp h₁).lookup h₂
  split at h
  · cases h
    exact hl₂
  · obtain ⟨_, -, h⟩ := bind_eq_ok.mp h
    cases h
    exact hl₂

theorem Intact.of_looked {c : Call} (h : call s c = .ok (r, t)) (hr : r ≠ 0) (hl : Looked s t) :
    Intact s c :=
  ⟨r, t, h, hr, hl, hl.image⟩

theorem length_eq_vfsHelpGetpathlen : path.length = vfsHelpGetpathlen path ↔ path.length = 0 := by
  unfold vfsHelpGetpathlen
  omega

theorem intact_mount_iff {filename dirname : CStr} :
    Intact s (.mount filename dirname) ↔ Stopped s (.mount filename dirname) := by
  constructor
  · rintro ⟨r, t, h, hr, -⟩
    simp only [call, vfsMount] at h
    obtain ⟨⟨r₁, s₁⟩, h₁, h⟩ := bind_eq_ok.mp h
    refine ⟨r₁, s₁, h₁, ?_⟩
    split at h
    · exact .inl ‹_›
    · obtain ⟨⟨r₂, s₂⟩, h₂, h⟩ := bind_eq_ok.mp h
      split at h
      next h0 => exact .inr ⟨s₂, h0 ▸ h₂⟩
      · -- past its tests the call returns 0
        simp only [bind_eq_ok] at h
        obtain ⟨_, -, _, -, _, -, _, -, _, -, _, -, _, -, _, -, _, -, _, -, h⟩ := h
        cases h
        exact absurd rfl hr
  · rintro ⟨r₁, s₁, h₁, h⟩
    have hl := Looked.refl.vfsAccess h₁
    by_cases hr : r₁ = 0
    · obtain ⟨s₂, h₂⟩ := h.resolve_left (absurd hr)
      refine .of_looked (r := 2) ?_ (by decide) (hl.vfsAccess h₂)
      simp only [call, vfsMount, h₁, ok_bind, hr, h₂]
      rfl
    · refine .of_looked (r := 1) ?_ (by decide) hl
      simp only [call, vfsMount, h₁, ok_bind, if_pos hr]
      rfl

theorem intact_create_iff : Intact s (.create path) ↔ Stopped s (.create path) := by
  constructor
  · rintro ⟨r, t, h, hr, -⟩
    simp only [call, vfsCreate] at h
    split at h
    next h0 => exact .inl (length_eq_vfsHelpGetpathlen.mp h0)
    · obtain ⟨s₁, h₁, h⟩ := bind_eq_ok.mp h
      obtain ⟨⟨par, s₂⟩, h₂, h⟩ := bind_eq_ok.mp h
      obtain ⟨d, hd, h⟩ := bind_eq_ok.mp h
      refine .inr ⟨s₁, h₁, par, s₂, d, h₂, hd, fun hext => ?_⟩
      rw [hext] at h
      split at h
      · simp only [bind_eq_ok] at h
        obtain ⟨_, -, _, -, _, -, _, -, h⟩ := h
        cases h
        exact hr rfl
      · cases h
      next hne _ => exact hne rfl
  · rintro (h0 | ⟨s₁, h₁, par, s₂, d, h₂, hd, hne⟩)
    · refine .of_looked (r := 1) ?_ (by decide) .refl
      simp only [call, vfsCreate, if_pos (length_eq_vfsHelpGetpathlen.mpr h0)]
      rfl
    · by_cases h0 : path.length = 0
      · refine .of_looked (r := 1) ?_ (by decide) .refl
        simp only [call, vfsCreate, if_pos (length_eq_vfsHelpGetpathlen.mpr h0)]
        rfl
      · refine .of_looked (r := 2) ?_ (by decide) (((Looked.refl.strcpyTmp h₁).cutTmp _).lookup h₂)
        simp only [call, vfsCreate, if_neg (mt length_eq_vfsHelpGetpathlen.mp h0), h₁, h₂, hd,
          ok_bind]
        split
        next hext _ => exact absurd hext hne
        next hext _ => exact absurd hext hne
        · rfl

theorem intact_remove_iff : Intact s (.remove path) ↔ Stopped s (.remove path) := by
  constructor
  · rintro ⟨r, t, h, hr, -⟩
    simp only [call, vfsRemove] at h
    split at h
    next h0 => exact .inl (length_eq_vfsHelpGetpathlen.mp h0)
    · obtain ⟨s₁, h₁, h⟩ := bind_eq_ok.mp h
      obtain ⟨⟨i, s₂⟩, h₂, h⟩ := bind_eq_ok.mp h
      obtain ⟨⟨par, s₃⟩, h₃, h⟩ := bind_eq_ok.mp h
      obtain ⟨d, hd, h⟩ := bind_eq_ok.mp h
      refine .inr ⟨i, s₂, bind_eq_ok.mpr ⟨s₁, h₁, h₂⟩, par, s₃, d, h₃, hd, ?_⟩
      split at h
      next k _ hfs =>
        obtain ⟨⟨r₄, disk⟩, h₄, h⟩ := bind_eq_ok.mp h
        split at h
        next hr₄ => exact .inr ⟨k, hfs, Ext2.remove_refused_iff.mp ⟨r₄, disk, hr₄, h₄⟩⟩
        · obtain ⟨_, -, h⟩ := bind_eq_ok.mp h
          cases h
          exact absurd rfl hr
      · cases h
      next hne _ => exact .inl hne
  · rintro (h0 | ⟨i, s₂, hres, par, s₃, d, h₃, hd, hcase⟩)
    · refine .of_looked (r := 1) ?_ (by decide) .refl
      simp only [call, vfsRemove, if_pos (length_eq_vfsHelpGetpathlen.mpr h0)]
      rfl
    · by_cases h0 : path.length = 0
      · refine .of_looked (r := 1) ?_ (by decide) .refl
        simp only [call, vfsRemove, if_pos (length_eq_vfsHelpGetpathlen.mpr h0)]
        rfl
      · have hl := ((Looked.refl.resolve hres).cutTmp _).lookup h₃
        obtain ⟨s₁, h₁, h₂⟩ := bind_eq_ok.mp hres
        have hcall : call s (.remove path) = .ok (2, s₃) ∨
            ∃ k disk, (disk : Ext2.Fs).dev = (s₃.disks k).dev ∧ call s (.remove path) =
              .ok (3, { s₃ with disks := Function.update s₃.disks k disk }) := by
          simp only [call, vfsRemove, if_neg (mt length_eq_vfsHelpGetpathlen.mp h0), h₁, h₂, h₃, hd,
            ok_bind]
          split
          next k hext hfs =>
            obtain ⟨k', hfs', hrefused⟩ := hcase.resolve_left fun hne => hne hext
            obtain ⟨r, disk, hr, hrem⟩ := Ext2.remove_refused_iff.mpr hrefused
            obtain rfl : k' = k := by
              rw [hfs] at hfs'
              cases hfs'
              rfl
            refine .inr ⟨k', disk, Ext2.remove_refused hrem hr, ?_⟩
            rw [hrem, ok_bind, if_pos hr]
            rfl
          next hext hnone =>
            obtain ⟨k, hfs, -⟩ := hcase.resolve_left fun hne => hne hext
            exact absurd hfs (hnone k)
          · exact .inl rfl
        rcases hcall with hcall | ⟨k, disk, hdev, hcall⟩
        · exact .of_looked hcall (by decide) hl
        · refine .of_looked hcall (by decide) (hl.buffers rfl rfl fun k' => ?_)
          rcases eq_or_ne k' k with rfl | hk
          · exact (congrArg Ext2.Fs.dev (Function.update_self ..)).trans hdev
          · exact congrArg Ext2.Fs.dev (Function.update_of_ne hk ..)

theorem intact_link_iff {oldpath newpath : CStr} :
    Intact s (.link oldpath newpath) ↔ Stopped s (.link oldpath newpath) := by
  constructor
  · rintro ⟨r, t, h, hr, -⟩
    simp only [call, vfsLink] at h
    obtain ⟨s₁, h₁, h⟩ := bind_eq_ok.mp h
    obtain ⟨⟨i, s₂⟩, h₂, h⟩ := bind_eq_ok.mp h
    refine ⟨i, s₂, bind_eq_ok.mpr ⟨s₁, h₁, h₂⟩, ?_⟩
    split at h
    next hi => exact .inl hi
    · obtain ⟨s₃, h₃, h⟩ := bind_eq_ok.mp h
      obtain ⟨⟨j, s₄⟩, h₄, h⟩ := bind_eq_ok.mp h
      split at h
      next hj => exact .inr ⟨j, s₄, bind_eq_ok.mpr ⟨s₃, h₃, h₄⟩, hj⟩
      · simp only [bind_eq_ok] at h
        obtain ⟨_, -, _, -, _, -, _, -, _, -, h⟩ := h
        cases h
        exact absurd rfl hr
  · rintro ⟨i, s₂, hres, h⟩
    have hl := Looked.refl.resolve hres
    obtain ⟨s₁, h₁, h₂⟩ := bind_eq_ok.mp hres
    by_cases hi : i = -1
    · refine .of_looked (r := 1) ?_ (by decide) hl
      simp only [call, vfsLink, h₁, h₂, ok_bind, if_pos hi]
      rfl
    · obtain ⟨j, s₄, hres', hj⟩ := h.resolve_left hi
      have hl' := hl.resolve hres'
      obtain ⟨s₃, h₃, h₄⟩ := bind_eq_ok.mp hres'
      refine .of_looked (r := 2) ?_ (by decide) hl'
      simp only [call, vfsLink, h₁, h₂, h₃, h₄, ok_bind, if_neg hi, if_pos hj]
      rfl

theorem intact_unlink_iff : Intact s (.unlink path) ↔ Stopped s (.unlink path) := by
  constructor
  · rintro ⟨r, t, h, hr, -⟩
    simp only [call, vfsUnlink] at h
    obtain ⟨s₁, h₁, h⟩ := bind_eq_ok.mp h
    obtain ⟨n, hn, h⟩ := bind_eq_ok.mp h
    obtain ⟨⟨par, s₂⟩, h₂, h⟩ := bind_eq_ok.mp h
    obtain ⟨p, hp, h⟩ := bind_eq_ok.mp h
    obtain ⟨k, hk, h⟩ := bind_eq_ok.mp h
    refine ⟨s₁, n, h₁, hn, par, s₂, p, h₂, hp, ?_⟩
    split at h
    next hk1 => exact hk1 ▸ hk
    · obtain ⟨v, -, h⟩ := bind_eq_ok.mp h
      obtain ⟨_, -, h⟩ := bind_eq_ok.mp h
      obtain ⟨_, -, h⟩ := bind_eq_ok.mp h
      have h0 : r = 0 := by
        split at h
        · obtain ⟨_, -, h⟩ := bind_eq_ok.mp h
          obtain ⟨_, -, h⟩ := bind_eq_ok.mp h
          cases h
          rfl
        · split at h
          · obtain ⟨_, -, h⟩ := bind_eq_ok.mp h
            obtain ⟨_, -, h⟩ := bind_eq_ok.mp h
            obtain ⟨_, -, h⟩ := bind_eq_ok.mp h
            cases h
            rfl
          · obtain ⟨_, -, h⟩ := bind_eq_ok.mp h
            cases h
            rfl
      exact absurd h0 hr
  · rintro ⟨s₁, n, h₁, hn, par, s₂, p, h₂, hp, hk⟩
    refine .of_looked (r := 1) ?_ (by decide) (((Looked.refl.strcpyTmp h₁).cutTmp _).lookup h₂)
    simp only [call, vfsUnlink, h₁, hn, h₂, hp, hk, ok_bind]
    rfl

end Stopped

/-- A call that cannot be served leaves everything intact exactly when one of its tests
stops it. -/
theorem unserved_intact_iff (s : State) (c : Call) :
    (Unserved s c → Intact s c) ↔ (Unserved s c → Stopped s c) := by
  refine forall_congr' fun hc => ?_
  cases c with
  | access path mode => exact hc.1.elim
  | mount filename dirname => exact intact_mount_iff
  | unmount path => exact hc.1.elim
  | create path => exact intact_create_iff
  | remove path => exact intact_remove_iff
  | link oldpath newpath => exact intact_link_iff
  | unlink path => exact intact_unlink_iff

/-- Whether the path is looked up in vain. -/
def missing (s : State) (path : CStr) : Bool :=
  match resolve s path with
  | .ok (i, _) => i == -1
  | .error _ => false

theorem not_resolves_of_missing {s : State} {path : CStr} (h : missing s path = true) :
    ¬Resolves s path := by
  rintro ⟨i, t, hres, hi⟩
  rw [missing, hres] at h
  exact hi (by simpa using h)

/-- Right after `vfs_init`, a link to be made in a directory that is not there leads to
an access to `vinodes[-1]`. -/
theorem link_below_missing_faults : ∃ s, Reachable s ∧
    Unserved s (.link (.lit "/dev/tty1") (.lit "/none/x")) ∧
    call s (.link (.lit "/dev/tty1") (.lit "/none/x")) = .error .badAccess ∧
    ¬Intact s (.link (.lit "/dev/tty1") (.lit "/none/x")) := by
  have htest : ∃ s, vfsInit (fun _ => Ext2.Device.zero Ext2.rdSize) 4 0 = .ok s ∧
      (missing s (parentPath (.lit "/none/x")) &&
        match call s (.link (.lit "/dev/tty1") (.lit "/none/x")) with
        | .error .badAccess => true
        | _ => false) = true :=
    exists_of_test (by decide +kernel)
  obtain ⟨s, hs, htest⟩ := htest
  rw [Bool.and_eq_true] at htest
  have hcall : call s (.link (.lit "/dev/tty1") (.lit "/none/x")) = .error .badAccess := by
    have h := htest.2
    split at h
    next he => exact he
    · cases h
  refine ⟨s, ⟨_, 4, 0, s, [], hs, rfl⟩, ⟨trivial, .inl ⟨.lit "/none/x", by simp [Call.paths], ?_⟩⟩,
    hcall, ?_⟩
  · exact .inl (not_resolves_of_missing htest.1)
  · rintro ⟨r, t, h, -⟩
    rw [hcall] at h
    cases h

end OsWorkbench.Vfs
