import OsWorkbench.Ext2.Volume

/-!
# What `ext2_remove` refuses

`ext2_remove` returns an error when no slot of the directory has the name, and when a directory
is to be removed and the inode of the first slot with the name has not the size of an empty one.
The search compares the names of all slots, of those without an inode too, and it goes on behind
a block whose first slot with the name has the inode number `-1`.
-/

namespace OsWorkbench.Ext2

/-! ## The slots of a directory -/

/-- `strcmp` with the name of the slot stays inside of the block. -/
def Comparable (b : Block) (name : CStr) (j : Nat) : Prop :=
  dirSize * j + 12 + (dirName b j).length < blkSize ∨ ¬(dirName b j).bytes.isPrefixOf name.bytes

instance (b : Block) (name : CStr) (j : Nat) : Decidable (Comparable b name j) :=
  inferInstanceAs (Decidable (_ ∨ _))

/-- The slot has another name. -/
def Differs (b : Block) (name : CStr) (j : Nat) : Prop := Comparable b name j ∧ dirName b j ≠ name

/-- The first slot of the block with the name. -/
structure FirstNamed (b : Block) (name : CStr) (j : Nat) : Prop where
  lt : j < dirAmut
  comparable : Comparable b name j
  named : dirName b j = name
  before : ∀ j' < j, Differs b name j'

/-- The search goes on behind the block. -/
def Passed (b : Block) (name : CStr) : Prop :=
  (∀ j < dirAmut, Differs b name j) ∨ ∃ j, FirstNamed b name j ∧ dirInode b j = 0xffffffff

/-- The inode is on the device. -/
def Device.HasInode (d : Device) (i : UInt32) : Prop := (indOffset i).toNat + 64 ≤ d.size

instance (d : Device) (i : UInt32) : Decidable (d.HasInode i) := inferInstanceAs (Decidable (_ ≤ _))

/-- Block `k` of the directory is on the device. -/
def Device.HasDir (d : Device) (x : Inode) (k : Nat) : Prop :=
  k < ext2NBlocks ∧ (blkOffset (x.blk k)).toNat + blkSize ≤ d.size

/-- No slot of the directory stops the search. -/
def Unlisted (d : Device) (x : Inode) (name : CStr) : Prop :=
  ∀ k < x.blocks.toNat, d.HasDir x k ∧ Passed (d.blockAt (x.blk k)) name

/-- The search stops at slot `j` of block `k`, which has the inode `idx`. -/
structure ListedAt (d : Device) (x : Inode) (name : CStr) (k j : Nat) (idx : UInt32) : Prop where
  lt : k < x.blocks.toNat
  hasDir : d.HasDir x k
  first : FirstNamed (d.blockAt (x.blk k)) name j
  inode : dirInode (d.blockAt (x.blk k)) j = idx
  idx_ne : idx ≠ 0xffffffff
  before : ∀ k' < k, d.HasDir x k' ∧ Passed (d.blockAt (x.blk k')) name

/-- The directory with the inode `ridx` does not list the name, or it is to be removed as a
directory and has not the size of an empty one. -/
def Refused (d : Device) (ridx : UInt32) (name : CStr) (mode : UInt32) : Prop :=
  d.HasInode ridx ∧
    (Unlisted d (d.inodeAt ridx) name ∨ has mode typeDir = true ∧
      ∃ k j idx, ListedAt d (d.inodeAt ridx) name k j idx ∧ d.HasInode idx ∧
        (d.inodeAt idx).size ≠ .ofNat (2 * dirSize))

/-! ## The search -/

section Search

variable {s : Fs} {b : Block} {name : CStr} {a n i j : Nat}

theorem strcmpName_differs (h : Differs b name j) : strcmpName b j name = .ok false :=
  (inBounds_bind h.1).trans (congrArg Except.ok (beq_eq_false_iff_ne.mpr h.2))

theorem strcmpName_named (h : Comparable b name j) (hname : dirName b j = name) :
    strcmpName b j name = .ok true :=
  (inBounds_bind h).trans (congrArg Except.ok (beq_iff_eq.mpr hname))

theorem strcmpName_eq_ok {r : Bool} (h : strcmpName b j name = .ok r) :
    Differs b name j ∧ r = false ∨ Comparable b name j ∧ dirName b j = name ∧ r = true := by
  obtain ⟨_, hc, h⟩ := bind_eq_ok.mp h
  have hc : Comparable b name j := inBounds_eq_ok.mp hc
  cases h
  by_cases hname : dirName b j = name
  · exact .inr ⟨hc, hname, beq_iff_eq.mpr hname⟩
  · exact .inl ⟨⟨hc, hname⟩, beq_eq_false_iff_ne.mpr hname⟩

theorem findName_differs (h : ∀ j, a ≤ j → j < a + n → Differs b name j) :
    findName b name (List.range' a n) = .ok none := by
  induction n generalizing a with
  | zero => rfl
  | succ n ih =>
    rw [List.range'_succ, findName, strcmpName_differs (h a le_rfl (by omega)), ok_bind]
    exact ih fun j hj hlt => h j (by omega) (by omega)

theorem findName_named (haj : a ≤ j) (hj : j < a + n) (hc : Comparable b name j)
    (hname : dirName b j = name) (hbefore : ∀ j', a ≤ j' → j' < j → Differs b name j') :
    findName b name (List.range' a n) = .ok (some j) := by
  induction n generalizing a with
  | zero => omega
  | succ n ih =>
    rw [List.range'_succ, findName]
    obtain rfl | hlt := Nat.eq_or_lt_of_le haj
    · rw [strcmpName_named hc hname, ok_bind]
      rfl
    · rw [strcmpName_differs (hbefore a le_rfl hlt), ok_bind]
      exact ih hlt (by omega) fun j' hj' hlt' => hbefore j' (by omega) hlt'

theorem findName_eq_ok {r : Option Nat} (h : findName b name (List.range' a n) = .ok r) :
    (∀ j, a ≤ j → j < a + n → Differs b name j) ∨
      ∃ j, a ≤ j ∧ j < a + n ∧ Comparable b name j ∧ dirName b j = name ∧
        ∀ j', a ≤ j' → j' < j → Differs b name j' := by
  induction n generalizing a with
  | zero => exact .inl fun j hj hlt => by omega
  | succ n ih =>
    rw [List.range'_succ, findName] at h
    obtain ⟨c, hc, h⟩ := bind_eq_ok.mp h
    obtain ⟨hdiff, rfl⟩ | ⟨hcomp, hname, rfl⟩ := strcmpName_eq_ok hc
    · have hfirst : ∀ j, a ≤ j → (a + 1 ≤ j → Differs b name j) → Differs b name j := by
        intro j haj hrest
        obtain rfl | hlt := Nat.eq_or_lt_of_le haj
        · exact hdiff
        · exact hrest hlt
      obtain hall | ⟨j, haj, hj, hcomp, hname, hbefore⟩ := ih h
      · exact .inl fun j haj hj => hfirst j haj fun hlt => hall j hlt (by omega)
      · exact .inr ⟨j, by omega, by omega, hcomp, hname, fun j' haj' hj' =>
          hfirst j' haj' fun hlt => hbefore j' hlt hj'⟩
    · exact .inr ⟨a, le_rfl, by omega, hcomp, hname, fun j' haj' hj' => by omega⟩

/-- What the search finds in one block, if it does not leave it. -/
theorem findName_block {r : Option Nat} (h : findName b name (List.range dirAmut) = .ok r) :
    (∀ j < dirAmut, Differs b name j) ∨ ∃ j, FirstNamed b name j := by
  rw [List.range_eq_range'] at h
  obtain hall | ⟨j, -, hj, hcomp, hname, hbefore⟩ := findName_eq_ok h
  · exact .inl fun j hj => hall j (Nat.zero_le j) (by omega)
  · exact .inr ⟨j, by omega, hcomp, hname, fun j' hj' => hbefore j' (Nat.zero_le j') hj'⟩

theorem FirstNamed.findName (h : FirstNamed b name j) :
    findName b name (List.range dirAmut) = .ok (some j) := by
  rw [List.range_eq_range']
  exact findName_named (Nat.zero_le j) (by rw [Nat.zero_add]; exact h.lt) h.comparable h.named
    fun j' _ hj' => h.before j' hj'

/-- The state after the block `i` of the loaded directory was read. -/
def Fs.readDir (s : Fs) (i : Nat) : Fs := { s with dir := s.dev.blockAt (s.ind.blk i) }

theorem searchName_read (h : s.dev.HasDir s.ind i) :
    searchName name (n + 1) i s =
      Ext2.findName (s.dev.blockAt (s.ind.blk i)) name (List.range dirAmut) >>= fun r =>
        match r with
        | some j =>
          if dirInode (s.dev.blockAt (s.ind.blk i)) j = 0xffffffff then
            searchName name n (i + 1) (s.readDir i)
          else .ok (some (i, j), s.readDir i)
        | none => searchName name n (i + 1) (s.readDir i) := by
  have hread : rdDir s (s.ind.blk i) = .ok (s.readDir i) :=
    bind_eq_ok.mpr ⟨_, inBounds_bind h.2, rfl⟩
  rw [searchName, inBounds_bind h.1, hread]
  rfl

theorem searchName_passed (h : s.dev.HasDir s.ind i)
    (hpassed : Passed (s.dev.blockAt (s.ind.blk i)) name) :
    searchName name (n + 1) i s = searchName name n (i + 1) (s.readDir i) := by
  rw [searchName_read h]
  obtain hall | ⟨j, hfirst, hidx⟩ := hpassed
  · rw [List.range_eq_range', findName_differs fun j _ hj => hall j (by omega)]
    rfl
  · rw [hfirst.findName, ok_bind]
    exact if_pos hidx

theorem searchName_here (h : s.dev.HasDir s.ind i)
    (hfirst : FirstNamed (s.dev.blockAt (s.ind.blk i)) name j)
    (hidx : dirInode (s.dev.blockAt (s.ind.blk i)) j ≠ 0xffffffff) :
    searchName name (n + 1) i s = .ok (some (i, j), s.readDir i) := by
  rw [searchName_read h, hfirst.findName, ok_bind]
  exact if_neg hidx

theorem searchName_eq_ok {r : Option (Nat × Nat) × Fs}
    (h : searchName name (n + 1) i s = .ok r) :
    s.dev.HasDir s.ind i ∧ (Passed (s.dev.blockAt (s.ind.blk i)) name ∨
      ∃ j, FirstNamed (s.dev.blockAt (s.ind.blk i)) name j ∧
        dirInode (s.dev.blockAt (s.ind.blk i)) j ≠ 0xffffffff) := by
  have hdir : s.dev.HasDir s.ind i := by
    rw [searchName] at h
    obtain ⟨_, hi, h⟩ := bind_eq_ok.mp h
    obtain ⟨_, hread, -⟩ := bind_eq_ok.mp h
    obtain ⟨_, hread, -⟩ := bind_eq_ok.mp hread
    obtain ⟨_, hbound, -⟩ := bind_eq_ok.mp hread
    exact ⟨inBounds_eq_ok.mp hi, inBounds_eq_ok.mp hbound⟩
  refine ⟨hdir, ?_⟩
  rw [searchName_read hdir] at h
  obtain ⟨_, hfind, -⟩ := bind_eq_ok.mp h
  obtain hall | ⟨j, hfirst⟩ := findName_block hfind
  · exact .inl (.inl hall)
  · by_cases hidx : dirInode (s.dev.blockAt (s.ind.blk i)) j = 0xffffffff
    · exact .inl (.inr ⟨j, hfirst, hidx⟩)
    · exact .inr ⟨j, hfirst, hidx⟩

/-- The search ends without a slot. -/
theorem searchName_none_iff :
    (∃ t, searchName name n i s = .ok (none, t)) ↔
      ∀ k, i ≤ k → k < i + n →
        s.dev.HasDir s.ind k ∧ Passed (s.dev.blockAt (s.ind.blk k)) name := by
  induction n generalizing i s with
  | zero => exact ⟨fun _ k hk hlt => by omega, fun _ => ⟨s, rfl⟩⟩
  | succ n ih =>
    constructor
    · rintro ⟨t, h⟩
      obtain ⟨hdir, hpassed | ⟨j, hfirst, hidx⟩⟩ := searchName_eq_ok h
      · rw [searchName_passed hdir hpassed] at h
        intro k hk hlt
        obtain rfl | hik := Nat.eq_or_lt_of_le hk
        · exact ⟨hdir, hpassed⟩
        · exact ih.mp ⟨t, h⟩ k hik (by omega)
      · rw [searchName_here hdir hfirst hidx] at h
        cases h
    · intro h
      obtain ⟨hdir, hpassed⟩ := h i le_rfl (by omega)
      rw [searchName_passed hdir hpassed]
      exact ih.mpr fun k hk hlt => h k (by omega) (by omega)

/-- The search stops at a slot. -/
theorem searchName_some_iff {k : Nat} {t : Fs} :
    searchName name n i s = .ok (some (k, j), t) ↔
      (i ≤ k ∧ k < i + n ∧ s.dev.HasDir s.ind k ∧
        FirstNamed (s.dev.blockAt (s.ind.blk k)) name j ∧
        dirInode (s.dev.blockAt (s.ind.blk k)) j ≠ 0xffffffff ∧
        ∀ k', i ≤ k' → k' < k →
          s.dev.HasDir s.ind k' ∧ Passed (s.dev.blockAt (s.ind.blk k')) name) ∧
      t = s.readDir k := by
  induction n generalizing i s with
  | zero =>
    constructor
    · intro h
      cases h
    · rintro ⟨⟨hk, hlt, -⟩, -⟩
      omega
  | succ n ih =>
    constructor
    · intro h
      obtain ⟨hdir, hpassed | ⟨j', hfirst, hidx⟩⟩ := searchName_eq_ok h
      · rw [searchName_passed hdir hpassed] at h
        obtain ⟨⟨hk, hlt, hdir', hfirst, hidx, hbefore⟩, ht⟩ := ih.mp h
        refine ⟨⟨by omega, by omega, hdir', hfirst, hidx, fun k' hk' hlt' => ?_⟩, ht⟩
        obtain rfl | hik := Nat.eq_or_lt_of_le hk'
        · exact ⟨hdir, hpassed⟩
        · exact hbefore k' hik hlt'
      · rw [searchName_here hdir hfirst hidx] at h
        cases h
        exact ⟨⟨le_rfl, by omega, hdir, hfirst, hidx, fun k' hk' hlt' => by omega⟩, rfl⟩
    · rintro ⟨⟨hk, hlt, hdir, hfirst, hidx, hbefore⟩, rfl⟩
      obtain rfl | hik := Nat.eq_or_lt_of_le hk
      · exact searchName_here hdir hfirst hidx
      · obtain ⟨hdir₀, hpassed⟩ := hbefore i le_rfl hik
        rw [searchName_passed hdir₀ hpassed]
        exact ih.mpr ⟨⟨hik, by omega, hdir, hfirst, hidx, fun k' hk' hlt' =>
          hbefore k' (by omega) hlt'⟩, rfl⟩

end Search

/-! ## The call -/

section Remove

variable {s : Fs} {ridx mode : UInt32} {name : CStr}

theorem rdInd_eq_ok {t : Fs} {i : UInt32} :
    rdInd s i = .ok t ↔ s.dev.HasInode i ∧ t = { s with ind := s.dev.inodeAt i } := by
  rw [rdInd, rdRead, bind_eq_ok]
  constructor
  · rintro ⟨b, hb, ht⟩
    obtain ⟨_, hbound, hb⟩ := bind_eq_ok.mp hb
    cases hb
    cases ht
    exact ⟨inBounds_eq_ok.mp hbound, rfl⟩
  · rintro ⟨hbound, rfl⟩
    exact ⟨_, inBounds_bind hbound, rfl⟩

/-- `ext2_remove` returns an error exactly when the entries say so. -/
theorem remove_refused_iff :
    (∃ r t, r ≠ 0 ∧ remove s ridx name mode = .ok (r, t)) ↔ Refused s.dev ridx name mode := by
  constructor
  · rintro ⟨r, t, hr, h⟩
    rw [remove] at h
    obtain ⟨s₁, hind, h⟩ := bind_eq_ok.mp h
    obtain ⟨hinode, rfl⟩ := rdInd_eq_ok.mp hind
    obtain ⟨⟨found, s₂⟩, hsearch, h⟩ := bind_eq_ok.mp h
    refine ⟨hinode, ?_⟩
    cases found with
    | none =>
      have hall := searchName_none_iff.mp ⟨s₂, hsearch⟩
      exact .inl fun k hk => hall k (Nat.zero_le k) (hk.trans_eq (Nat.zero_add _).symm)
    | some kj =>
      obtain ⟨k, j⟩ := kj
      obtain ⟨⟨-, hk, hdir, hfirst, hidx, hbefore⟩, rfl⟩ := searchName_some_iff.mp hsearch
      obtain ⟨s₃, hind, h⟩ := bind_eq_ok.mp h
      obtain ⟨hinode', rfl⟩ := rdInd_eq_ok.mp hind
      split at h
      next hmode =>
        split at h
        · obtain ⟨_, -, h⟩ := bind_eq_ok.mp h
          obtain ⟨_, -, h⟩ := bind_eq_ok.mp h
          exact absurd (dropEntry_zero h) hr
        next hsize =>
          refine .inr
            ⟨hmode, k, j, _, ⟨hk.trans_eq (Nat.zero_add _), hdir, hfirst, rfl, hidx, fun k' hk' =>
            hbefore k' (Nat.zero_le k') hk'⟩, hinode', hsize⟩
      · obtain ⟨_, -, h⟩ := bind_eq_ok.mp h
        exact absurd (dropEntry_zero h) hr
  · rintro ⟨hinode, hnone | ⟨hmode, k, j, idx, hlisted, hinode', hsize⟩⟩
    · obtain ⟨t, hsearch⟩ := searchName_none_iff (s := { s with ind := s.dev.inodeAt ridx })
        (n := (s.dev.inodeAt ridx).blocks.toNat) (i := 0) |>.mpr fun k _ hk => hnone k (by omega)
      refine ⟨1, t, Nat.one_ne_zero, ?_⟩
      rw [remove, rdInd_eq_ok.mpr ⟨hinode, rfl⟩, ok_bind, hsearch]
      rfl
    · let s₁ : Fs := { s with ind := s.dev.inodeAt ridx }
      have hsearch := searchName_some_iff (s := s₁) (n := (s.dev.inodeAt ridx).blocks.toNat)
        (i := 0) |>.mpr ⟨⟨Nat.zero_le k, hlisted.lt.trans_eq (Nat.zero_add _).symm, hlisted.hasDir,
          hlisted.first, hlisted.inode ▸ hlisted.idx_ne, fun k' _ hk' => hlisted.before k' hk'⟩,
          rfl⟩
      have hread : rdInd (s₁.readDir k) (dirInode (s₁.readDir k).dir j) =
          .ok { s₁.readDir k with ind := s.dev.inodeAt idx } := by
        have hidx : dirInode (s₁.readDir k).dir j = idx := hlisted.inode
        rw [hidx]
        exact rdInd_eq_ok.mpr ⟨hinode', rfl⟩
      refine ⟨1, { s₁.readDir k with ind := s.dev.inodeAt idx }, Nat.one_ne_zero, ?_⟩
      rw [remove, rdInd_eq_ok.mpr ⟨hinode, rfl⟩, ok_bind, hsearch, ok_bind]
      exact bind_eq_ok.mpr ⟨_, hread, (if_pos hmode).trans (if_neg hsize)⟩

end Remove

end OsWorkbench.Ext2
