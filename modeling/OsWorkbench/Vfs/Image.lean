import OsWorkbench.Ext2.Volume
import OsWorkbench.Vfs.Model

/-!
# Lookups and the images of the volumes

A lookup reads the volumes and does not change them, and what it reads is determined
by their images.
-/

namespace OsWorkbench.Vfs

/-- The images of the two volumes are the same. -/
def SameImage (s t : State) : Prop := ∀ k, (t.disks k).dev = (s.disks k).dev

theorem SameImage.trans {s t u : State} (h : SameImage s t) (h' : SameImage t u) : SameImage s u :=
  fun k => (h' k).trans (h k)

section Images

variable {s t : State} {i : Int}

theorem readdir_image {fs : Filesys} {ridx : UInt32} {kth : Nat} {e : Option Ext2.Entry}
    (h : readdir s fs ridx kth = .ok (e, t)) : SameImage s t := by
  cases fs with
  | procfs =>
    cases h
    exact fun _ => rfl
  | ramdisk k =>
    obtain ⟨⟨e', d⟩, hd, h⟩ := bind_eq_ok.mp h
    cases h
    obtain ⟨d₁, hd₁, hd⟩ := bind_eq_ok.mp hd
    have hdev : d.dev = (s.disks k).dev := (Ext2.readdirBlocks_dev hd).trans (Ext2.rdInd_dev hd₁)
    intro k'
    by_cases hk : k' = k
    · rw [hk]
      exact (congrArg Ext2.Fs.dev (Function.update_self ..)).trans hdev
    · exact congrArg Ext2.Fs.dev (Function.update_of_ne hk ..)

theorem populate_image {path : List UInt8} {n kth : Nat} {c c' : Cursor}
    (h : populate i path n kth c s = .ok (c', t)) : SameImage s t := by
  induction n generalizing kth c s with
  | zero => cases h
  | succ n ih =>
    simp only [populate] at h
    obtain ⟨d, -, h⟩ := bind_eq_ok.mp h
    split at h
    · cases h
    · obtain ⟨⟨e, s₁⟩, h₁, h⟩ := bind_eq_ok.mp h
      have himg := readdir_image h₁
      cases e with
      | none =>
        cases h
        exact himg
      | some e =>
        obtain ⟨⟨c₂, V⟩, -, h⟩ := bind_eq_ok.mp h
        have hrest := ih h
        exact himg.trans fun k => hrest k

theorem stripSlash_disks (s : State) : (stripSlash s).disks = s.disks := by
  simp only [stripSlash]
  split
  · rfl
  · split <;> rfl

theorem lookupAutoLoop_image {n : Nat} (h : lookupAutoLoop n s = .ok (i, t)) : SameImage s t := by
  induction n generalizing s with
  | zero => cases h
  | succ n ih =>
    have hstrip : SameImage s (stripSlash s) := fun k => by rw [stripSlash_disks]
    simp only [lookupAutoLoop] at h
    obtain ⟨⟨flag, idx, offset⟩, -, h⟩ := bind_eq_ok.mp h
    split at h
    · cases h
      exact hstrip
    · obtain ⟨d, -, h⟩ := bind_eq_ok.mp h
      split at h
      · cases h
        exact hstrip
      · split at h
        · cases h
          exact hstrip
        · obtain ⟨⟨c, s₁⟩, h₁, h⟩ := bind_eq_ok.mp h
          have himg := hstrip.trans (populate_image h₁)
          split at h
          · cases h
            exact himg
          · obtain ⟨_, -, h⟩ := bind_eq_ok.mp h
            obtain ⟨_, -, h⟩ := bind_eq_ok.mp h
            exact himg.trans (ih h)

end Images

theorem SameImage.symm {s t : State} (h : SameImage s t) : SameImage t s := fun k => (h k).symm

theorem readdir_frame {s t : State} {fs : Filesys} {ridx : UInt32} {kth : Nat}
    {e : Option Ext2.Entry} (h : readdir s fs ridx kth = .ok (e, t)) :
    t.vinodes = s.vinodes ∧ t.totalProc = s.totalProc ∧ t.tmppath = s.tmppath := by
  cases fs with
  | procfs =>
    cases h
    exact ⟨rfl, rfl, rfl⟩
  | ramdisk k =>
    obtain ⟨⟨e', d⟩, -, h⟩ := bind_eq_ok.mp h
    cases h
    exact ⟨rfl, rfl, rfl⟩

theorem stripSlash_frame (s : State) :
    (stripSlash s).vinodes = s.vinodes ∧ (stripSlash s).totalProc = s.totalProc := by
  simp only [stripSlash]
  split
  · exact ⟨rfl, rfl⟩
  · split <;> exact ⟨rfl, rfl⟩

/-- Two states list the same entries when their images are the same. -/
theorem readdir_congr {s t u : State} {fs : Filesys} {ridx : UInt32} {kth : Nat}
    {e : Option Ext2.Entry} (himg : SameImage s t) (hproc : t.totalProc = s.totalProc)
    (h : readdir s fs ridx kth = .ok (e, u)) : ∃ u', readdir t fs ridx kth = .ok (e, u') := by
  cases fs with
  | procfs =>
    cases h
    exact ⟨t, by rw [readdir, hproc]⟩
  | ramdisk k =>
    obtain ⟨⟨e', d⟩, hd, h⟩ := bind_eq_ok.mp h
    cases h
    obtain ⟨x', hx'⟩ := Ext2.readdir_congr (himg k) hd
    exact ⟨_, bind_eq_ok.mpr ⟨_, hx', rfl⟩⟩

end OsWorkbench.Vfs
