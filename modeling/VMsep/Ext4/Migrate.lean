import VMsep.Ext4.ExtentMerge
import VMsep.Ext4.IndirectMap
import VMsep.Lib.BranchScan

/-! `ext4_ext_migrate` on a tree of direct and indirect blocks. The extent tree of the temporary
inode is the list of its extents; nothing writes to the file meanwhile. -/

namespace VMsep.Ext4

open VMsep.Lib VMsep.Lib.Branches List

/-- `struct migrate_struct`. -/
structure MigrateStruct where
  firstBlock : ℕ
  lastBlock : ℕ
  currBlock : ℕ
  firstPblock : ℕ
  lastPblock : ℕ
  deriving DecidableEq

/-- `outOfOrder` is an extent in front of another one, which is not modelled. -/
inductive MigrateError where
  | efscorrupted
  | outOfOrder
  deriving DecidableEq

structure Migration where
  lb : MigrateStruct
  extents : List FileExtent
  deriving DecidableEq

/-- The length that a 16-bit `ee_len` stands for, and whether it says unwritten. -/
def storedLen (len : ℕ) : ℕ × Bool :=
  let eeLen := len % 2 ^ 16
  if eeLen ≤ extInitMaxLen then (eeLen, false) else (eeLen - extInitMaxLen, true)

/-- `ext4_ext_insert_extent` of an extent behind all others. -/
def extInsertExtent (extents : List FileExtent) (newext : FileExtent) :
    Except MigrateError (List FileExtent) :=
  if newext.len = 0 then .error .efscorrupted
  else
    match extents.getLast? with
    | none => .ok [newext]
    | some ex =>
      if newext.eeBlock < ex.eeBlock + ex.len then .error .outOfOrder
      else if canExtentsBeMerged false ex newext then
        .ok (extents.dropLast ++ [{ ex with len := ex.len + newext.len }])
      else .ok (extents ++ [newext])

def finishRange (m : Migration) : Except MigrateError Migration :=
  if m.lb.firstPblock = 0 then .ok m
  else
    let len := (m.lb.lastBlock + 2 ^ 32 - m.lb.firstBlock + 1) % 2 ^ 32
    (extInsertExtent m.extents
      ⟨m.lb.firstBlock, (storedLen len).1, m.lb.firstPblock, (storedLen len).2⟩).map
        fun extents => ⟨{ m.lb with firstPblock := 0 }, extents⟩

def updateExtentRange (pblock : ℕ) (m : Migration) : Except MigrateError Migration :=
  let next := (m.lb.currBlock + 1) % 2 ^ 32
  if m.lb.firstPblock ≠ 0 ∧ m.lb.lastPblock + 1 = pblock ∧
      (m.lb.lastBlock + 1) % 2 ^ 32 = m.lb.currBlock then
    .ok { m with lb := { m.lb with
      lastPblock := pblock, lastBlock := m.lb.currBlock, currBlock := next } }
  else
    (finishRange m).map fun m' =>
      { m' with lb := ⟨m.lb.currBlock, m.lb.currBlock, next, pblock, pblock⟩ }

/-- `lb->curr_block += blocks`. -/
def skipBlocks (blocks : ℕ) (m : Migration) : Migration :=
  { m with lb := { m.lb with currBlock := (m.lb.currBlock + blocks) % 2 ^ 32 } }

/-- The loop over a block of pointers, with what is done below a pointer and the number of blocks
that are skipped where there is none. -/
def updateEntries (maxEntries : ℕ) (s : Pointers)
    (below : ℕ → Migration → Except MigrateError Migration) (blocks pblock : ℕ) (m : Migration) :
    Except MigrateError Migration :=
  (range maxEntries).foldlM (fun m i =>
    if s.slot pblock i ≠ 0 then below (s.slot pblock i) m else .ok (skipBlocks blocks m)) m

def updateIndExtentRange (maxEntries : ℕ) (s : Pointers) :
    ℕ → Migration → Except MigrateError Migration :=
  updateEntries maxEntries s updateExtentRange 1

def updateDindExtentRange (maxEntries : ℕ) (s : Pointers) :
    ℕ → Migration → Except MigrateError Migration :=
  updateEntries maxEntries s (updateIndExtentRange maxEntries s) maxEntries

def updateTindExtentRange (maxEntries : ℕ) (s : Pointers) :
    ℕ → Migration → Except MigrateError Migration :=
  updateEntries maxEntries s (updateDindExtentRange maxEntries s) (maxEntries * maxEntries)

def freeDindBlocks (maxEntries : ℕ) (s : Pointers) (iData : ℕ) : List ℕ :=
  ((range maxEntries).flatMap fun i =>
    if s.slot iData i ≠ 0 then [s.slot iData i] else []) ++ [iData]

def freeTindBlocks (maxEntries : ℕ) (s : Pointers) (iData : ℕ) : List ℕ :=
  ((range maxEntries).flatMap fun i =>
    if s.slot iData i ≠ 0 then freeDindBlocks maxEntries s (s.slot iData i) else []) ++ [iData]

/-- `free_ind_block`: the blocks it gives back. -/
def freeIndBlock (maxEntries : ℕ) (s : Pointers) : List ℕ :=
  (if s.root 12 ≠ 0 then [s.root 12] else []) ++
    (if s.root 13 ≠ 0 then freeDindBlocks maxEntries s (s.root 13) else []) ++
    if s.root 14 ≠ 0 then freeTindBlocks maxEntries s (s.root 14) else []

/-- `ext4_ext_migrate` for a file with blocks of `2 ^ bits` bytes: the extents and the blocks given
back. -/
def extMigrate (bits : ℕ) (s : Pointers) :
    Except MigrateError (List FileExtent × List ℕ) := do
  let maxEntries := 2 ^ (bits - 2)
  let m : Migration := ⟨⟨0, 0, 0, 0, 0⟩, []⟩
  let m ← (range ndirBlocks).foldlM (fun m i =>
    if s.root i ≠ 0 then updateExtentRange (s.root i) m else .ok (skipBlocks 1 m)) m
  let m ← (if s.root 12 ≠ 0 then updateIndExtentRange maxEntries s (s.root 12) m
    else .ok (skipBlocks maxEntries m))
  let m ← (if s.root 13 ≠ 0 then updateDindExtentRange maxEntries s (s.root 13) m
    else .ok (skipBlocks (maxEntries * maxEntries) m))
  let m ← (if s.root 14 ≠ 0 then updateTindExtentRange maxEntries s (s.root 14) m else .ok m)
  let m ← finishRange m
  return (m.extents, freeIndBlock maxEntries s)

variable {s : Pointers} {n bits : ℕ} {d v : ℕ}

def visit (m : Migration) (v : ℕ) : Except MigrateError Migration :=
  if v ≠ 0 then updateExtentRange v m else .ok (skipBlocks 1 m)

theorem foldlM_visit_zeros (k : ℕ) (m : Migration) :
    (replicate (k + 1) 0).foldlM visit m = .ok (skipBlocks (k + 1) m) := by
  induction k generalizing m with
  | zero => rfl
  | succ k ih =>
    rw [replicate_succ, foldlM_cons]
    show (replicate (k + 1) 0).foldlM visit (skipBlocks 1 m) = _
    rw [ih]
    simp only [skipBlocks, Nat.mod_add_mod, Nat.add_assoc, Nat.add_comm 1]

theorem foldlM_flatMap {α β : Type} {σ ε : Type} (f : σ → β → Except ε σ) (g : α → List β)
    (l : List α) (m : σ) : (l.flatMap g).foldlM f m = l.foldlM (fun m a => (g a).foldlM f m) m := by
  induction l generalizing m with
  | nil => rfl
  | cons _ _ ih =>
    rw [flatMap_cons, foldlM_append, foldlM_cons]
    congr 1
    funext m
    exact ih m

theorem updateEntries_eq {below : ℕ → Migration → Except MigrateError Migration} (hn : 0 < n)
    (hbelow : ∀ v, v ≠ 0 → ∀ m, below v m = (s.values n d v).foldlM visit m) (hv : v ≠ 0)
    (m : Migration) :
    updateEntries n s below (n ^ d) v m = (s.values n (d + 1) v).foldlM visit m := by
  rw [updateEntries, Pointers.values, if_neg hv, foldlM_flatMap]
  congr 1
  funext m i
  split
  case isTrue h0 => exact hbelow _ h0 m
  case isFalse h0 =>
    have hslot : s.slot v i = 0 := not_not.mp h0
    have hzero : s.values n d 0 = replicate (n ^ d) 0 := by
      cases d with
      | zero => rfl
      | succ => exact if_pos rfl
    obtain ⟨k, hk⟩ := Nat.exists_eq_succ_of_ne_zero (Nat.pow_pos (n := d) hn).ne'
    rw [hslot, hzero, hk]
    exact (foldlM_visit_zeros k m).symm

def dataPointers (n : ℕ) (s : Pointers) : List ℕ :=
  (range ndirBlocks).map s.root ++ s.values n 1 (s.root 12) ++ s.values n 2 (s.root 13) ++
    if s.root 14 ≠ 0 then s.values n 3 (s.root 14) else []

theorem updateIndExtentRange_eq (hn : 0 < n) (hv : v ≠ 0) (m : Migration) :
    updateIndExtentRange n s v m = (s.values n 1 v).foldlM visit m := by
  refine updateEntries_eq (d := 0) hn (fun v hv m => ?_) hv m
  show updateExtentRange v m = visit m v >>= pure
  rw [visit, if_pos hv, bind_pure]

theorem updateDindExtentRange_eq (hn : 0 < n) (hv : v ≠ 0) (m : Migration) :
    updateDindExtentRange n s v m = (s.values n 2 v).foldlM visit m := by
  rw [updateDindExtentRange, ← updateEntries_eq hn (fun v hv m => updateIndExtentRange_eq hn hv m)
    hv, Nat.pow_one]

theorem updateTindExtentRange_eq (hn : 0 < n) (hv : v ≠ 0) (m : Migration) :
    updateTindExtentRange n s v m = (s.values n 3 v).foldlM visit m := by
  rw [updateTindExtentRange,
    ← updateEntries_eq hn (fun v hv m => updateDindExtentRange_eq hn hv m) hv, Nat.pow_two]

theorem level_eq {k : ℕ} {m : Migration} {update : ℕ → Migration → Except MigrateError Migration}
    (hn : 0 < n) (hk : k = n ^ (d + 1))
    (hupdate : v ≠ 0 → update v m = (s.values n (d + 1) v).foldlM visit m) :
    (if v ≠ 0 then update v m else .ok (skipBlocks k m)) =
      (s.values n (d + 1) v).foldlM visit m := by
  split
  case isTrue h0 => exact hupdate h0
  case isFalse h0 =>
    obtain ⟨j, hj⟩ := Nat.exists_eq_succ_of_ne_zero (Nat.pow_pos (n := d + 1) hn).ne'
    rw [Pointers.values, if_pos (not_not.mp h0), hk, hj]
    exact (foldlM_visit_zeros j m).symm

theorem extMigrate_eq (bits : ℕ) (s : Pointers) : extMigrate bits s =
      ((dataPointers (2 ^ (bits - 2)) s).foldlM visit ⟨⟨0, 0, 0, 0, 0⟩, []⟩).bind fun m =>
        (finishRange m).map fun m => (m.extents, freeIndBlock (2 ^ (bits - 2)) s) := by
  have hn : 0 < 2 ^ (bits - 2) := Nat.two_pow_pos _
  unfold extMigrate dataPointers
  generalize 2 ^ (bits - 2) = n at hn
  have h12 : ∀ m, (if s.root 12 ≠ 0 then updateIndExtentRange n s (s.root 12) m
      else .ok (skipBlocks n m)) = (s.values n 1 (s.root 12)).foldlM visit m := fun m =>
    level_eq hn (Nat.pow_one n).symm fun h => updateIndExtentRange_eq hn h m
  have h13 : ∀ m, (if s.root 13 ≠ 0 then updateDindExtentRange n s (s.root 13) m
      else .ok (skipBlocks (n * n) m)) = (s.values n 2 (s.root 13)).foldlM visit m := fun m =>
    level_eq hn (Nat.pow_two n).symm fun h => updateDindExtentRange_eq hn h m
  have h14 : ∀ m, (if s.root 14 ≠ 0 then updateTindExtentRange n s (s.root 14) m else .ok m) =
      (if s.root 14 ≠ 0 then s.values n 3 (s.root 14) else []).foldlM visit m := by
    intro m
    split
    case isTrue h => exact updateTindExtentRange_eq hn h m
    case isFalse => rfl
  simp only [h12, h13, h14]
  show _ = (_ >>= fun m => (finishRange m).map _)
  simp only [foldlM_append, foldlM_map, bind_assoc]
  rfl

theorem digits_one (n x : ℕ) : Pointers.digits n 1 x = [x] := by
  simp [Pointers.digits]

theorem digits_two (n x : ℕ) : Pointers.digits n 2 x = [x / n, x % n] := by
  simp [Pointers.digits]

theorem digits_three (n x : ℕ) : Pointers.digits n 3 x = [x / n / n, x / n % n, x % n] := by
  have hmid : x % (n * n) / n = x / n % n := Nat.mod_mul_right_div_self x n n
  have hlow : x % (n * n) % n = x % n := Nat.mod_mul_right_mod x n n
  simp [Pointers.digits, Nat.pow_two, hmid, hlow, Nat.div_div_eq_div_mul]

theorem getD_dataPointers (bits : ℕ) (s : Pointers) (l : ℕ) :
    ((dataPointers (2 ^ (bits - 2)) s)[l]?).getD 0 = indLookup bits s l := by
  have hpos : 0 < 2 ^ (bits - 2) := Nat.two_pow_pos _
  have hcases := blockToPath_cases (bits - 2) l
  unfold indLookup dataPointers
  generalize blockToPath (bits - 2) l = path at hcases
  generalize 2 ^ (bits - 2) = n at hcases hpos
  have h0 : ((range ndirBlocks).map s.root).length = 12 := by simp [ndirBlocks]
  have h1 : (s.values n 1 (s.root 12)).length = n := by simp
  have h2 : (s.values n 2 (s.root 13)).length = n * n := by simp [Nat.pow_two]
  have h3 : (s.values n 3 (s.root 14)).length = n * n * n := by simp [Nat.pow_succ]
  have hA : ((range ndirBlocks).map s.root ++ s.values n 1 (s.root 12)).length = 12 + n := by
    rw [length_append, h0, h1]
  have hB : ((range ndirBlocks).map s.root ++ s.values n 1 (s.root 12) ++
      s.values n 2 (s.root 13)).length = 12 + n + n * n := by
    rw [length_append, hA, h2]
  obtain ⟨hl, rfl⟩ | ⟨x, rfl, hx, rfl⟩ | ⟨x, rfl, hx, rfl⟩ | ⟨x, rfl, hx, rfl⟩ | ⟨hx, rfl⟩ := hcases
  · rw [append_assoc, append_assoc, getElem?_append_left (by omega),
      getElem?_map, getElem?_range (by unfold ndirBlocks; omega)]
    rfl
  · rw [append_assoc, append_assoc, getElem?_append_right (by omega), h0,
      getElem?_append_left (by omega), Nat.add_sub_cancel_left,
      s.getElem?_values n _ (by rwa [Nat.pow_one]), digits_one]
    rfl
  · rw [append_assoc, getElem?_append_right (by omega), hA,
      getElem?_append_left (by omega), Nat.add_sub_cancel_left,
      s.getElem?_values n _ (by rwa [Nat.pow_two]), digits_two]
    rfl
  · rw [getElem?_append_right (by omega), hB, Nat.add_sub_cancel_left]
    have hlt : x < n ^ 3 := by
      rw [Nat.div_div_eq_div_mul, Nat.div_lt_iff_lt_mul (Nat.mul_pos hpos hpos)] at hx
      rw [Nat.pow_succ, Nat.pow_two, Nat.mul_comm]
      exact hx
    split
    case isTrue => rw [s.getElem?_values n _ hlt, digits_three]; rfl
    case isFalse h14 =>
      show 0 = s.follow (s.root 14) _
      rw [not_not.mp h14, s.follow_zero]
  · rw [getElem?_append_right (by omega), hB]
    have hnone : (if s.root 14 ≠ 0 then s.values n 3 (s.root 14) else [])[l - (12 + n + n * n)]? =
        none := by
      split
      · exact getElem?_eq_none (by omega)
      · rfl
    rw [hnone]
    rfl

theorem dataPointers_eq (bits : ℕ) (s : Pointers) : dataPointers (2 ^ (bits - 2)) s =
      (range (dataPointers (2 ^ (bits - 2)) s).length).map (indLookup bits s) := by
  refine ext_getElem? fun l => ?_
  have hl := getD_dataPointers bits s l
  rw [getElem?_map]
  by_cases hlt : l < (dataPointers (2 ^ (bits - 2)) s).length
  · rw [getElem?_range hlt, Option.map_some, ← hl, getElem?_eq_getElem hlt]
    rfl
  · rw [getElem?_eq_none (by omega), getElem?_eq_none (by rw [length_range]; omega)]
    rfl

end VMsep.Ext4
