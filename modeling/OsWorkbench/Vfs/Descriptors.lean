import OsWorkbench.Ext2.Contents
import OsWorkbench.Vfs.Files

/-!
# Reading and writing through descriptors

The calls of `vfs_read` and `vfs_write` on descriptors of ext2 files, any number of them on any
number of files, against a store of byte strings: each descriptor has a position that only moves
on, and a write cuts the file at the position before it appends.
-/

namespace OsWorkbench.Vfs

/-! ## The store -/

/-- A file of a ram disk. -/
structure Handle where
  disk : Fin 2
  ridx : UInt32
  deriving DecidableEq

/-- What the files hold, how many blocks of each disk are free, and where the descriptors are. -/
structure Store where
  file : Handle → Option (List UInt8)
  free : Fin 2 → Nat
  fd : Nat → Option (Handle × Nat)

inductive Transfer
  | read (fd nbyte : Nat)
  | write (fd : Nat) (data : List UInt8)

/-- The number that a call returns, and the bytes that it reads. -/
abbrev Outcome := Int × List UInt8

/-- One call, where `ext2_read` and `ext2_write` take it as it is meant. -/
def Store.transfer (st : Store) : Transfer → Option (Outcome × Store)
  | .read fd nbyte => do
    let (h, p) ← st.fd fd
    let c ← st.file h
    guard (nbyte ≤ 1024 ∧ Ext2.ReadsInside c.length p nbyte)
    let bytes := (c.drop p).take nbyte
    return ((bytes.length, bytes),
      { st with fd := Function.update st.fd fd (some (h, p + bytes.length)) })
  | .write fd data => do
    let (h, p) ← st.fd fd
    let c ← st.file h
    guard (data.length ≤ 1024 ∧ Ext2.Fits c.length p data.length (st.free h.disk))
    return ((data.length, []), {
      file := Function.update st.file h (some (c.take p ++ data))
      free := Function.update st.free h.disk
        (st.free h.disk + Ext2.blocksFor c.length - Ext2.blocksFor (p + data.length))
      fd := Function.update st.fd fd (some (h, p + data.length)) })

def Store.transfers (st : Store) : List Transfer → Option (List Outcome × Store)
  | [] => some ([], st)
  | c :: cs => do
    let (out, st) ← st.transfer c
    let (outs, st) ← st.transfers cs
    return (out :: outs, st)

/-! ## The calls -/

section Calls

variable {E : Type}

/-- The call with an array for the bytes. -/
def transfer (D : Drivers E) (t : Table E) : Transfer → Except Fault (Outcome × Table E)
  | .read fd nbyte => do
    let (r, buf, t) ← vfsRead D t fd (fun _ => 0) nbyte
    return ((r, (List.range r.toNat).map buf), t)
  | .write fd data => do
    let (r, t) ← vfsWrite D t fd (fun k => data.getD k 0) data.length
    return ((r, []), t)

def transfers (D : Drivers E) (t : Table E) : List Transfer → Except Fault (List Outcome × Table E)
  | [] => .ok ([], t)
  | c :: cs => do
    let (out, t) ← transfer D t c
    let (outs, t) ← transfers D t cs
    return (out :: outs, t)

/-- The file of a descriptor and its position. -/
def Table.handle (t : Table E) (fd : Nat) : Option (Handle × Nat) :=
  if fd < maxFile then
    match t.vfs.vinodes.get (t.files fd).vinodeIdx with
    | .ok v =>
      match v.fsType, v.fs with
      | .ext2fs, some (.ramdisk k) => some (⟨k, v.ridx⟩, (t.files fd).offset.toNat)
      | _, _ => none
    | .error _ => none
  else none

/-- The store that the table and the disks represent. -/
def Table.store (t : Table E) : Store where
  file h := (t.vfs.disks h.disk).file h.ridx
  free k := (t.vfs.disks k).gdt.freeBlocksCount.toNat
  fd := t.handle

variable {t t' : Table E} {fd n p : Nat} {h : Handle}

theorem of_handle (hfd : t.handle fd = some (h, p)) :
    fd < maxFile ∧ p = (t.files fd).offset.toNat ∧
      ∃ v, t.vfs.vinodes.get (t.files fd).vinodeIdx = .ok v ∧ v.fsType = .ext2fs ∧
        v.fs = some (.ramdisk h.disk) ∧ v.ridx = h.ridx := by
  unfold Table.handle at hfd
  split at hfd
  · next hlt =>
    split at hfd
    · next v hv =>
      split at hfd
      · next k htype hfs =>
        cases hfd
        exact ⟨hlt, rfl, v, hv, htype, hfs, rfl⟩
      · cases hfd
    · cases hfd
  · cases hfd

/-- The table after a call on a descriptor of the disk `k`, which is `d` now. -/
def Table.moved (t : Table E) (k : Fin 2) (d : Ext2.Fs) (fd n : Nat) : Table E :=
  ({ t with vfs := { t.vfs with disks := Function.update t.vfs.disks k d } } : Table E).advance fd n

/-- The position of the descriptor, and of no other, moves on. -/
theorem handle_moved {k : Fin 2} {d : Ext2.Fs} (hfd : t.handle fd = some (h, p))
    (hn : p + n < 2 ^ 64) :
    (t.moved k d fd n).handle = Function.update t.handle fd (some (h, p + n)) := by
  obtain ⟨hlt, rfl, v, hv, htype, hfs, hridx⟩ := of_handle hfd
  funext fd'
  rcases eq_or_ne fd' fd with rfl | hne
  · have hget : (t.moved k d fd' n).vfs.vinodes.get ((t.moved k d fd' n).files fd').vinodeIdx =
        .ok v := by
      show t.vfs.vinodes.get (Function.update t.files fd' _ fd').vinodeIdx = _
      rw [Function.update_self]
      exact hv
    have hoffset : ((t.moved k d fd' n).files fd').offset.toNat =
        (t.files fd').offset.toNat + n := by
      show (Function.update t.files fd' _ fd').offset.toNat = _
      rw [Function.update_self]
      show ((t.files fd').offset + UInt64.ofNat ((n : Int) % 2 ^ 64).toNat).toNat = _
      rw [UInt64.toNat_add, UInt64.toNat_ofNat']
      omega
    rw [Function.update_self, Table.handle, if_pos hlt, hget]
    simp only [htype, hfs, hridx, hoffset]
  · rw [Function.update_of_ne hne]
    have hfile : (t.moved k d fd n).files fd' = t.files fd' := Function.update_of_ne hne ..
    unfold Table.handle
    rw [hfile]
    rfl

theorem index_natCast {i m : Nat} (hi : i < m) : index (i : Int) m = .ok i := by
  unfold index
  rw [if_pos ⟨Int.natCast_nonneg i, Int.ofNat_lt.mpr hi⟩, Int.toNat_natCast]

theorem vfsRead_ok {D : Drivers E} {buf buf' : Nat → UInt8} {nbyte : Nat} {d : Ext2.Fs}
    (hfd : t.handle fd = some (h, p)) (hn : nbyte ≤ 1024) (hle : n ≤ 1024)
    (hread : Ext2.read (t.vfs.disks h.disk) h.ridx (t.files fd).offset buf (.ofNat nbyte) =
      .ok (n, buf', d)) :
    vfsRead D t fd buf nbyte = .ok (n, buf', t.moved h.disk d fd n) := by
  obtain ⟨hlt, -, v, hv, htype, hfs, hridx⟩ := of_handle hfd
  have hint : toInt n = n := toInt_small (by omega)
  unfold vfsRead
  rw [if_neg (by omega), check_pos hn, ok_bind, index_natCast hlt, ok_bind, hv, ok_bind]
  simp only [htype, hfs, hridx]
  rw [hread, ok_bind]
  simp only [hint]
  rfl

theorem vfsWrite_ok {D : Drivers E} {buf : Nat → UInt8} {nbyte : Nat} {d : Ext2.Fs}
    (hfd : t.handle fd = some (h, p)) (hn : nbyte ≤ 1024) (hle : n ≤ 1024)
    (hwrite : Ext2.write (t.vfs.disks h.disk) h.ridx (t.files fd).offset buf (.ofNat nbyte) =
      .ok (n, d)) :
    vfsWrite D t fd buf nbyte = .ok (n, t.moved h.disk d fd n) := by
  obtain ⟨hlt, -, v, hv, htype, hfs, hridx⟩ := of_handle hfd
  have hint : toInt n = n := toInt_small (by omega)
  unfold vfsWrite
  rw [if_neg (by omega), check_pos hn, ok_bind, index_natCast hlt, ok_bind, hv, ok_bind]
  simp only [htype, hfs, hridx]
  rw [hwrite, ok_bind]
  simp only [hint]
  rfl

/-! ## The simulation -/

theorem range_map_getD (data : List UInt8) :
    (List.range data.length).map (fun k => data.getD k 0) = data := by
  refine List.ext_getElem (by simp) fun k hk hk' => ?_
  simp only [List.getElem_map, List.getElem_range, List.getD_eq_getElem?_getD,
    List.getElem?_eq_getElem hk', Option.getD_some]

variable {D : Drivers E} {c : Transfer} {out : Outcome} {st : Store}

/-- The disks after a call, one of which is `d` now. -/
theorem tidy_moved {k : Fin 2} {d : Ext2.Fs} (ht : ∀ k, Ext2.Tidy (t.vfs.disks k))
    (hd : Ext2.Tidy d)
    (k' : Fin 2) : Ext2.Tidy ((t.moved k d fd n).vfs.disks k') := by
  show Ext2.Tidy (Function.update t.vfs.disks k d k')
  rcases eq_or_ne k' k with rfl | hne
  · rwa [Function.update_self]
  · rw [Function.update_of_ne hne]
    exact ht k'

theorem store_moved {k : Fin 2} {d : Ext2.Fs} :
    (t.moved k d fd n).store = {
      file := fun h => (Function.update t.vfs.disks k d h.disk).file h.ridx
      free := fun k' => (Function.update t.vfs.disks k d k').gdt.freeBlocksCount.toNat
      fd := (t.moved k d fd n).handle } := rfl

theorem of_guard {P : Prop} [Decidable P] {u : Unit} (h : (guard P : Option Unit) = some u) :
    P := by
  by_contra hP
  simp [guard, hP] at h

theorem length_lt {s : Ext2.Fs} {r : UInt32} {c : List UInt8} (hc : s.file r = some c) :
    c.length < 2 ^ 32 := by
  obtain ⟨-, rfl⟩ := Ext2.of_file hc
  rw [Ext2.length_fileBytes]
  exact UInt32.toNat_lt _

theorem read_store {nbyte : Nat} (ht : ∀ k, Ext2.Tidy (t.vfs.disks k))
    (hs : t.store.transfer (.read fd nbyte) = some (out, st)) :
    ∃ t', transfer D t (.read fd nbyte) = .ok (out, t') ∧ (∀ k, Ext2.Tidy (t'.vfs.disks k)) ∧
      t'.store = st := by
  simp only [Store.transfer, Option.bind_eq_bind, Option.bind_eq_some_iff] at hs
  obtain ⟨⟨h, p⟩, hfd, c, hc, _, hguard, hs⟩ := hs
  cases hs
  have hfd : t.handle fd = some (h, p) := hfd
  have hc : (t.vfs.disks h.disk).file h.ridx = some c := hc
  obtain ⟨-, rfl, -⟩ := of_handle hfd
  obtain ⟨hle, hin⟩ := of_guard hguard
  dsimp only at hin ⊢
  have hlen : (UInt32.ofNat nbyte).toNat = nbyte := by
    rw [UInt32.toNat_ofNat']
    omega
  rw [← hlen] at hin
  obtain ⟨n, buf, d, hread, htidy, hfile, hgdt, hn, hbytes⟩ :=
    (ht h.disk).read (fun _ => 0) hc hin
  rw [hlen] at hn hbytes
  have hcount : ((c.drop (t.files fd).offset.toNat).take nbyte).length = n := by
    rw [← hbytes, List.length_map, List.length_range]
  have hmax := length_lt hc
  have hoff := hin.1
  refine ⟨t.moved h.disk d fd n, bind_eq_ok.mpr ⟨_, vfsRead_ok hfd hle (by omega) hread, ?_⟩,
    tidy_moved ht htidy, ?_⟩
  · show Except.ok (((n : Int), (List.range (n : Int).toNat).map buf), _) = _
    rw [hcount, Int.toNat_natCast, hbytes]
  · rw [store_moved, handle_moved hfd (by omega), hcount]
    congr 1
    · funext h'
      by_cases he : h'.disk = h.disk
      · rw [he, Function.update_self, hfile, ← he]
        rfl
      · rw [Function.update_of_ne he]
        rfl
    · funext k'
      by_cases he : k' = h.disk
      · rw [he, Function.update_self, hgdt]
        rfl
      · rw [Function.update_of_ne he]
        rfl

theorem write_store {data : List UInt8} (ht : ∀ k, Ext2.Tidy (t.vfs.disks k))
    (hs : t.store.transfer (.write fd data) = some (out, st)) :
    ∃ t', transfer D t (.write fd data) = .ok (out, t') ∧ (∀ k, Ext2.Tidy (t'.vfs.disks k)) ∧
      t'.store = st := by
  simp only [Store.transfer, Option.bind_eq_bind, Option.bind_eq_some_iff] at hs
  obtain ⟨⟨h, p⟩, hfd, c, hc, _, hguard, hs⟩ := hs
  cases hs
  have hfd : t.handle fd = some (h, p) := hfd
  have hc : (t.vfs.disks h.disk).file h.ridx = some c := hc
  obtain ⟨-, rfl, -⟩ := of_handle hfd
  obtain ⟨hle, hfits⟩ := of_guard hguard
  dsimp only at hfits ⊢
  have hlen : (UInt32.ofNat data.length).toNat = data.length := by
    rw [UInt32.toNat_ofNat']
    omega
  have hfits' := hfits
  rw [← hlen] at hfits'
  obtain ⟨d, hwrite, htidy, hself, hothers, hfree⟩ :=
    (ht h.disk).write (fun k => data.getD k 0) hc hfits'
  rw [hlen] at hwrite hself hfree
  rw [range_map_getD] at hself
  have hmax := length_lt hc
  have hoff := hfits.inside
  refine ⟨t.moved h.disk d fd data.length,
    bind_eq_ok.mpr ⟨_, vfsWrite_ok hfd hle hle hwrite, rfl⟩, tidy_moved ht htidy, ?_⟩
  rw [store_moved, handle_moved hfd (by omega)]
  congr 1
  · funext h'
    by_cases he : h' = h
    · rw [he, Function.update_self, Function.update_self, hself]
    · rw [Function.update_of_ne he]
      by_cases hd : h'.disk = h.disk
      · have hne : h'.ridx ≠ h.ridx := fun hr => he (by
          cases h
          cases h'
          cases hd
          cases hr
          rfl)
        rw [hd, Function.update_self, hothers _ hne, ← hd]
        rfl
      · rw [Function.update_of_ne hd]
        rfl
  · funext k'
    by_cases he : k' = h.disk
    · rw [he, Function.update_self, Function.update_self]
      exact Nat.eq_sub_of_add_eq hfree
    · rw [Function.update_of_ne he, Function.update_of_ne he]
      rfl

/-- One call does what the same call on the store does. -/
theorem transfer_store (ht : ∀ k, Ext2.Tidy (t.vfs.disks k))
    (hs : t.store.transfer c = some (out, st)) :
    ∃ t', transfer D t c = .ok (out, t') ∧ (∀ k, Ext2.Tidy (t'.vfs.disks k)) ∧ t'.store = st := by
  cases c with
  | read fd nbyte => exact read_store ht hs
  | write fd data => exact write_store ht hs

/-- A sequence of calls that the store takes returns what it returns on the store, and leaves the
disks with the files of the store and in order. -/
theorem transfers_store {cs : List Transfer} {outs : List Outcome}
    (ht : ∀ k, Ext2.Tidy (t.vfs.disks k)) (hs : t.store.transfers cs = some (outs, st)) :
    ∃ t', transfers D t cs = .ok (outs, t') ∧ (∀ k, Ext2.Tidy (t'.vfs.disks k)) ∧
      t'.store = st := by
  induction cs generalizing t outs with
  | nil =>
    cases hs
    exact ⟨t, rfl, ht, rfl⟩
  | cons c cs ih =>
    simp only [Store.transfers, Option.bind_eq_bind, Option.bind_eq_some_iff] at hs
    obtain ⟨⟨out, st₁⟩, hone, ⟨outs', st₂⟩, hrest, hs⟩ := hs
    cases hs
    obtain ⟨t₁, hcall, ht₁, rfl⟩ := transfer_store (D := D) ht hone
    obtain ⟨t', hrun, ht', hstore⟩ := ih ht₁ hrest
    exact ⟨t', bind_eq_ok.mpr ⟨_, hcall, bind_eq_ok.mpr ⟨_, hrun, rfl⟩⟩, ht', hstore⟩

end Calls

/-- Descriptors of the file `r` on the disk `k`. -/
def allOpen (s : Ext2.Fs) (k : Fin 2) (r : UInt32) : Table Unit where
  vfs := {
    vinodes :=
      fun _ => ⟨.lit "/R0/hello.cpp", .lit "hello.cpp", -1, -1, -1, -1, Ext2.fileMode, 1, r,
      .ext2fs, some (.ramdisk k), 0, 0⟩
    disks := fun _ => s
    totalProc := 4
    tmppath := fun _ => 0
    before := 0 }
  env := ()
  files := fun _ => ⟨1, 0, 0⟩

/-- What one descriptor writes the other one reads. -/
theorem transfers_two {st : Store} {h : Handle} {c : List UInt8} (h0 : st.fd 0 = some (h, 0))
    (h1 : st.fd 1 = some (h, 0)) (hc : st.file h = some c)
    (hfits : Ext2.Fits c.length 0 2 (st.free h.disk)) :
    ∃ st', st.transfers [.write 0 [0x61, 0x62], .read 1 4, .read 0 1] =
      some ([(2, []), (2, [0x61, 0x62]), (0, [])], st') := by
  have hin : Ext2.ReadsInside 2 0 4 ∧ Ext2.ReadsInside 2 2 1 := by decide
  simp [Store.transfers, Store.transfer, h0, h1, hc, guard, hfits, hin]

theorem transfers_store_hello : ∃ (t t' : Table Unit), (∀ k, Ext2.Tidy (t.vfs.disks k)) ∧
    transfers noDrivers t [.write 0 [0x61, 0x62], .read 1 4, .read 0 1] =
      .ok ([(2, []), (2, [0x61, 0x62]), (0, [])], t') := by
  obtain ⟨s, r, hrun, -, hlive, hmode, -, -, hfree⟩ := Ext2.init_file
  obtain ⟨s', hrun', htidy⟩ := Ext2.init_tidy (.lit "ramdisk1") Ext2.room_rdSize
    (Ext2.clean_zero _) (by decide)
  rw [hrun] at hrun'
  cases hrun'
  have hreg : Ext2.Regular s r := ⟨hlive, by rw [hmode]; decide, by rw [hmode]; decide⟩
  have hfits : Ext2.Fits (Ext2.fileBytes s.dev.vol (s.dev.vol.inode r)).length 0 2
      s.gdt.freeBlocksCount.toNat := by
    refine ⟨Nat.zero_le _, by decide, ?_, by decide⟩
    rw [hfree]
    exact le_trans (by decide : _ ≤ 4093) (Nat.le_add_left _ _)
  have hfd : ∀ fd, fd < maxFile → (allOpen s 0 r).store.fd fd = some (⟨0, r⟩, 0) :=
    fun fd hlt => if_pos hlt
  have hfile : (allOpen s 0 r).store.file ⟨0, r⟩ =
      some (Ext2.fileBytes s.dev.vol (s.dev.vol.inode r)) :=
    if_pos hreg
  obtain ⟨st, hst⟩ := transfers_two (hfd 0 (by decide)) (hfd 1 (by decide)) hfile hfits
  obtain ⟨t', hcalls, -⟩ := transfers_store (D := noDrivers) (fun _ => htidy) hst
  exact ⟨allOpen s 0 r, t', fun _ => htidy, hcalls⟩

end OsWorkbench.Vfs
