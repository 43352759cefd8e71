import OsWorkbench.Vfs.Populate
import OsWorkbench.Vfs.Remove

/-!
# Calls in two parts

A call looks up its paths, and these lookups may populate directories; then it makes its
change to the tree. The change and what it is applied to are the plan of the call. The
lookups are a parameter, so that the plan can also be made by lookups that are stopped
in front of what they should not populate.
-/

namespace OsWorkbench.Vfs

open Ext2 (has wrAble rdAble typeFile typeDir)

/-- What a call does after its lookups. The result of a `remove` that is part of
`vfs_unlink` is dropped. -/
inductive Plan
  | finish (r : Nat)
  | mount (file par : Int) (name : CStr)
  | unmount (idx par : Int)
  | create (idx : Int) (name : CStr)
  | remove (dropped : Bool) (nidx idx : Int) (name : CStr)
  | link (oidx par : Int) (name : CStr)
  | unlink (k par : Int)
  deriving DecidableEq

section Plan

variable (look : State → Except Fault (Int × State))

def planAccess (s : State) (path : CStr) (mode : UInt32) : Except Fault (Nat × State) := do
  let s ← strcpyTmp s path
  let (idx, s) ← look s
  if idx = -1 then return (1, s)
  let v ← s.vinodes.get idx
  return (if v.mode &&& mode ≠ mode then 1 else 0, s)

def planMount (s : State) (filename dirname : CStr) : Except Fault (Plan × State) := do
  let (r, s) ← planAccess look s filename (typeFile ||| mntAble)
  if r ≠ 0 then return (.finish 1, s)
  let (r, s) ← planAccess look s dirname typeDir
  if r = 0 then return (.finish 2, s)
  let s ← strcpyTmp s filename
  let (file, s) ← look s
  let s ← strcpyTmp s dirname
  let n ← lastItemLen dirname
  let offset := dirname.length - n - 1
  let (par, s) ← look (cutTmp s offset)
  return (.mount file par (s.str (offset + 1)), s)

def planUnmount (s : State) (path : CStr) : Except Fault (Plan × State) := do
  let (r, s) ← planAccess look s path (typeDir ||| unmntAble)
  if r ≠ 0 then return (.finish 1, s)
  let s ← strcpyTmp s path
  let (idx, s) ← look s
  let n ← lastItemLen path
  let (par, s) ← look (cutTmp s (path.length - n - 1))
  return (.unmount idx par, s)

def planCreate (s : State) (path : CStr) : Except Fault (Plan × State) := do
  let offset := vfsHelpGetpathlen path
  if path.length = offset then return (.finish 1, s)
  let s ← strcpyTmp s path
  let (idx, s) ← look (cutTmp s offset)
  return (.create idx (s.str (offset + 1)), s)

def planRemove (s : State) (path : CStr) (dropped : Bool) : Except Fault (Plan × State) := do
  let offset := vfsHelpGetpathlen path
  if path.length = offset then return (.finish (if dropped then 0 else 1), s)
  let s ← strcpyTmp s path
  let (nidx, s) ← look s
  let (idx, s) ← look (cutTmp s offset)
  return (.remove dropped nidx idx (s.str (offset + 1)), s)

def planLink (s : State) (oldpath newpath : CStr) : Except Fault (Plan × State) := do
  let s ← strcpyTmp s oldpath
  let (oidx, s) ← look s
  if oidx = -1 then return (.finish 1, s)
  let s ← strcpyTmp s newpath
  let (nidx, s) ← look s
  if nidx ≠ -1 then return (.finish 2, s)
  let n ← lastItemLen newpath
  let offset := newpath.length - n - 1
  let (par, s) ← look (cutTmp s offset)
  return (.link oidx par (s.str (offset + 1)), s)

def planUnlink (s : State) (path : CStr) : Except Fault (Plan × State) := do
  let s ← strcpyTmp s path
  let n ← lastItemLen path
  let offset := path.length - n - 1
  let (par, s) ← look (cutTmp s offset)
  let p ← s.vinodes.get par
  let name := s.str (offset + 1)
  let k ← findChild s.vinodes (fun t => t == name) (maxVinode + 1) p.child
  if k = -1 then return (.finish 1, s)
  let v ← s.vinodes.get k
  check (v.name ≠ .lit ".")
  check (v.name ≠ .lit "..")
  if has v.mode typeLink ∨ v.prevLink ≠ k then return (.unlink k par, s)
  else planRemove look s path true

def plan (s : State) : Call → Except Fault (Plan × State)
  | .access path mode => do
    let (r, s) ← planAccess look s path mode
    return (.finish r, s)
  | .mount filename dirname => planMount look s filename dirname
  | .unmount path => planUnmount look s path
  | .create path => planCreate look s path
  | .remove path => planRemove look s path false
  | .link oldpath newpath => planLink look s oldpath newpath
  | .unlink path => planUnlink look s path

end Plan

/-- The change. -/
def exec (s : State) : Plan → Except Fault (Nat × State)
  | .finish r => return (r, s)
  | .mount file par name => do
    let f ← s.vinodes.get file
    let (nidx, V) ← appendDir s.vinodes par name (typeDir ||| unmntAble) f.fsType f.fs
    let V ← V.modify file fun v => { v with mode := v.mode &&& ~~~mntAble }
    let V ← V.modify nidx fun v => { v with linkcnt := file }
    let V ← mountRidx V file nidx
    return (0, { s with vinodes := V })
  | .unmount idx par => do
    let d ← s.vinodes.get idx
    let V ← s.vinodes.modify d.linkcnt fun v => { v with mode := v.mode ||| mntAble }
    let V ← removeDir V idx par
    return (0, { s with vinodes := V })
  | .create idx name => do
    let d ← s.vinodes.get idx
    match d.fsType, d.fs with
    | .ext2fs, some (.ramdisk k) =>
      let (ridx, disk) ← Ext2.create (s.disks k) d.ridx name typeDir
      let (nidx, V) ← appendDir s.vinodes idx name typeDir d.fsType d.fs
      let V ← prepareDir V nidx idx d.fsType d.fs
      let V ← V.modify nidx fun v => { v with ridx := ridx }
      return (0, { s with disks := Function.update s.disks k disk, vinodes := V })
    | .ext2fs, _ => .error .badAccess
    | _, _ => return (2, s)
  | .remove dropped nidx idx name => do
    let d ← s.vinodes.get idx
    match d.fsType, d.fs with
    | .ext2fs, some (.ramdisk k) =>
      let (r, disk) ← Ext2.remove (s.disks k) d.ridx name
        (if 46 ∈ name.bytes then typeFile else typeDir)
      let s := { s with disks := Function.update s.disks k disk }
      if r ≠ 0 then return (if dropped then 0 else 3, s)
      let V ← removeDir s.vinodes nidx idx
      return (0, { s with vinodes := V })
    | .ext2fs, _ => .error .badAccess
    | _, _ => return (if dropped then 0 else 2, s)
  | .link oidx par name => do
    let (nidx, V) ← appendDir s.vinodes par name typeLink .vfs none
    let V ← linkPath V oidx nidx
    let V ← addLink V oidx nidx
    return (0, { s with vinodes := V })
  | .unlink k par => do
    let v ← s.vinodes.get k
    let V ← if has v.mode typeLink then pure s.vinodes
      else s.vinodes.modify v.prevLink fun l => { l with
        mode := v.mode, ridx := v.ridx, fs := v.fs, fsType := v.fsType }
    let V ← removeLink V k
    let V ← removeDir V k par
    return (0, { s with vinodes := V })

/-! ## The calls -/

theorem planAccess_lookupAuto (s : State) (path : CStr) (mode : UInt32) :
    planAccess lookupAuto s path mode = vfsAccess s path mode := rfl

theorem vfsMount_eq (s : State) (filename dirname : CStr) :
    vfsMount s filename dirname =
      planMount lookupAuto s filename dirname >>= fun x => exec x.2 x.1 := by
  simp only [vfsMount, planMount, planAccess_lookupAuto, bind_assoc]
  refine bind_congr fun x => ?_
  split
  · rfl
  · simp only [bind_assoc]
    refine bind_congr fun y => ?_
    split
    · rfl
    · simp only [bind_assoc, pure_bind]
      rfl

theorem vfsUnmount_eq (s : State) (path : CStr) :
    vfsUnmount s path = planUnmount lookupAuto s path >>= fun x => exec x.2 x.1 := by
  simp only [vfsUnmount, planUnmount, planAccess_lookupAuto, bind_assoc]
  refine bind_congr fun x => ?_
  split
  · rfl
  · simp only [bind_assoc, pure_bind]
    rfl

theorem vfsCreate_eq (s : State) (path : CStr) :
    vfsCreate s path = planCreate lookupAuto s path >>= fun x => exec x.2 x.1 := by
  simp only [vfsCreate, planCreate]
  split
  · rfl
  · simp only [bind_assoc, pure_bind]
    rfl

theorem vfsRemove_eq (s : State) (path : CStr) :
    vfsRemove s path = planRemove lookupAuto s path false >>= fun x => exec x.2 x.1 := by
  simp only [vfsRemove, planRemove]
  split
  · rfl
  · simp only [bind_assoc, pure_bind]
    rfl

/-- The result of the removal is dropped. -/
theorem vfsRemove_dropped (s : State) (path : CStr) :
    (vfsRemove s path >>= fun x => pure (0, x.2)) =
      planRemove lookupAuto s path true >>= fun x => exec x.2 x.1 := by
  simp only [vfsRemove, planRemove]
  split
  · rfl
  · simp only [bind_assoc, pure_bind]
    refine bind_congr fun s₁ => bind_congr fun x => bind_congr fun y => ?_
    simp only [exec]
    refine bind_congr fun d => ?_
    cases d.fsType <;> cases hfs : d.fs with
    | none => rfl
    | some fs =>
      cases fs with
      | procfs => rfl
      | ramdisk k =>
        first
          | rfl
          | simp only [bind_assoc]
            refine bind_congr fun z => ?_
            split
            · rfl
            · simp only [bind_assoc, pure_bind]

theorem vfsLink_eq (s : State) (oldpath newpath : CStr) :
    vfsLink s oldpath newpath =
      planLink lookupAuto s oldpath newpath >>= fun x => exec x.2 x.1 := by
  simp only [vfsLink, planLink, bind_assoc]
  refine bind_congr fun s₁ => bind_congr fun x => ?_
  split
  · rfl
  · simp only [bind_assoc]
    refine bind_congr fun s₂ => bind_congr fun y => ?_
    split
    · rfl
    · simp only [bind_assoc, pure_bind]
      rfl

theorem vfsUnlink_eq (s : State) (path : CStr) :
    vfsUnlink s path = planUnlink lookupAuto s path >>= fun x => exec x.2 x.1 := by
  simp only [vfsUnlink, planUnlink, bind_assoc]
  refine bind_congr fun s₁ => bind_congr fun n => bind_congr fun x => bind_congr fun p =>
    bind_congr fun k => ?_
  split
  · rfl
  · simp only [bind_assoc]
    cases hv : x.2.vinodes.get k with
    | error e => rfl
    | ok v =>
      simp only [ok_bind]
      refine bind_congr fun _ => bind_congr fun _ => ?_
      by_cases hl : has v.mode typeLink = true
      · simp [hl, exec, hv]
      · by_cases hp : v.prevLink = k
        · simpa [hl, hp] using vfsRemove_dropped x.2 path
        · simp [hl, hp, exec, hv]

/-- A call is its lookups and then its change. -/
theorem call_eq (s : State) (c : Call) :
    call s c = plan lookupAuto s c >>= fun x => exec x.2 x.1 := by
  cases c with
  | access path mode =>
    simp only [call, plan, planAccess_lookupAuto, bind_assoc, pure_bind, exec, Prod.mk.eta,
      bind_pure]
  | mount filename dirname => exact vfsMount_eq s filename dirname
  | unmount path => exact vfsUnmount_eq s path
  | create path => exact vfsCreate_eq s path
  | remove path => exact vfsRemove_eq s path
  | link oldpath newpath => exact vfsLink_eq s oldpath newpath
  | unlink path => exact vfsUnlink_eq s path

end OsWorkbench.Vfs
