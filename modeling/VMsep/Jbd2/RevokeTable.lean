import VMsep.Jbd2.Recovery
import Mathlib.Data.List.Induction

/-! The revoke table of recovery keeps one record for each block, with the latest of its sequence
numbers. -/

namespace VMsep.Jbd2

open Function List

/-- The records of `j_revoke` for each value of the hash function. -/
abbrev HashTable := ℕ → List RevokeRecord

namespace HashTable

variable (hash : BitVec 64 → ℕ)

def setRevoke (t : HashTable) (r : BitVec 64 × Tid) : HashTable :=
  update t (hash r.1) (Jbd2.setRevoke (t (hash r.1)) r.1 r.2)

def testRevoke (t : HashTable) (blocknr : BitVec 64) (sequence : Tid) : Bool :=
  Jbd2.testRevoke (t (hash blocknr)) blocknr sequence

/-- The table after the records of a list. -/
def ofRecords (rs : List (BitVec 64 × Tid)) : HashTable := rs.foldl (setRevoke hash) fun _ => []

end HashTable

def IsFor (b : BitVec 64) (r : RevokeRecord) : Bool := r.blocknr == b.toNat

/-- The sequence number that is kept when `x` is added. -/
def laterOf (x : Tid) : Option Tid → Tid
  | none => x
  | some y => if tidGt x y then x else y

/-- Some record for block `b` is at least `n` numbers after `w`. -/
def Revokes (w : Tid) (rs : List (BitVec 64 × Tid)) (b : BitVec 64) (n : ℕ) : Prop :=
  ∃ y, (b, y) ∈ rs ∧ n ≤ (y - w).toNat

variable {l : List RevokeRecord} {rs : List (BitVec 64 × Tid)} {b c : BitVec 64} {x y w : Tid}
  {a : Option Tid} {hash : BitVec 64 → ℕ} {t : HashTable} {n : ℕ}

theorem tidGt_iff (hx : (x - w).toNat < 2 ^ 31) (hy : (y - w).toNat < 2 ^ 31) :
    tidGt x y = true ↔ (y - w).toNat < (x - w).toNat := by
  rw [tidGt, decide_eq_true_iff, BitVec.toInt_eq_toNat_cond]
  split_ifs <;> bv_omega

theorem le_laterOf (hx : (x - w).toNat < 2 ^ 31) (ha : ∀ y ∈ a, (y - w).toNat < 2 ^ 31) :
    n ≤ (laterOf x a - w).toNat ↔ n ≤ (x - w).toNat ∨ ∃ y ∈ a, n ≤ (y - w).toNat := by
  cases a with
  | none => simp [laterOf]
  | some y =>
    simp only [laterOf, Option.mem_def, Option.some.injEq, exists_eq_left', tidGt_iff hx (ha y rfl)]
    split_ifs <;> omega

theorem find_of_filter (h : l.filter (IsFor b) = (a.map (.mk b.toNat)).toList) :
    l.find? (·.blocknr == b.toNat) = a.map (.mk b.toNat) := by
  have hhead := head?_filter (p := IsFor b) (l := l)
  rw [h] at hhead
  cases a <;> exact hhead.symm

theorem setRevoke_filter (h : l.filter (IsFor b) = (a.map (.mk b.toNat)).toList) (x : Tid)
    (c : BitVec 64) : (setRevoke l b x).filter (IsFor c) =
      if c = b then [⟨b.toNat, laterOf x a⟩] else l.filter (IsFor c) := by
  have hne : ∀ {r}, c ≠ b → IsFor c r = true → ¬ IsFor b r = true := by
    intro r hcb hc hb
    exact hcb (BitVec.eq_of_toNat_eq ((beq_iff_eq.mp hc).symm.trans (beq_iff_eq.mp hb)))
  have hmap : (l.map fun r => if IsFor b r then { r with sequence := x } else r).filter (IsFor c) =
      (l.filter (IsFor c)).map fun r => if IsFor b r then { r with sequence := x } else r := by
    rw [filter_map]
    congr 2
    funext r
    simp only [comp]
    split_ifs <;> rfl
  rw [setRevoke, find_of_filter h]
  cases a with
  | none =>
    split_ifs with hcb
    · subst hcb
      exact (filter_cons_of_pos (p := IsFor c) (beq_self_eq_true _)).trans (congrArg _ h)
    · exact filter_cons_of_neg fun hc => hne hcb hc (beq_self_eq_true _)
  | some y =>
    simp only [Option.map_some, laterOf]
    split_ifs with hgt hcb hcb
    · subst hcb
      refine hmap.trans ?_
      rw [h]
      exact congrArg (cons · []) (if_pos (beq_self_eq_true _))
    · refine hmap.trans ((map_congr_left fun r hr => ?_).trans (map_id _))
      exact if_neg (hne hcb (mem_filter.mp hr).2)
    · subst hcb
      exact h
    · rfl

/-- A block has a record in its own list only, and the record revokes what the records of the list
revoke. -/
def Kept (hash : BitVec 64 → ℕ) (w : Tid) (rs : List (BitVec 64 × Tid)) (t : HashTable) : Prop :=
  ∀ b, ∃ a : Option Tid, (∀ y ∈ a, (y - w).toNat < 2 ^ 31) ∧
    (∀ n, Revokes w rs b n ↔ ∃ y ∈ a, n ≤ (y - w).toNat) ∧
    ∀ i, (t i).filter (IsFor b) = if i = hash b then (a.map (.mk b.toNat)).toList else []

theorem Kept.set (h : Kept hash w rs t) (hx : (x - w).toNat < 2 ^ 31) :
    Kept hash w (rs ++ [(b, x)]) (t.setRevoke hash (b, x)) := by
  obtain ⟨a, ha, hrev, hfilter⟩ := h b
  have hset := setRevoke_filter ((hfilter (hash b)).trans (if_pos rfl)) x
  intro c
  by_cases hcb : c = b
  · subst hcb
    refine ⟨some (laterOf x a), ?_, fun n => ?_, fun i => ?_⟩
    · rintro y ⟨⟩
      exact not_le.mp fun hle => by
        obtain hle | ⟨y, hy, hle⟩ := (le_laterOf hx ha).mp hle
        · omega
        · exact absurd (ha y hy) (not_lt.mpr hle)
    · have hnew : Revokes w (rs ++ [(c, x)]) c n ↔ n ≤ (x - w).toNat ∨ Revokes w rs c n := by
        simp [Revokes, or_and_right, exists_or, or_comm]
      rw [hnew, hrev, ← le_laterOf hx ha]
      simp
    unfold HashTable.setRevoke
    by_cases hi : i = hash c
    · subst hi
      rw [update_self, hset, if_pos rfl, if_pos rfl]
      rfl
    · rw [update_of_ne hi, hfilter, if_neg hi, if_neg hi]
  · obtain ⟨a', ha', hrev', hfilter'⟩ := h c
    refine ⟨a', ha', fun n => ?_, fun i => ?_⟩
    · rw [← hrev']
      simp [Revokes, hcb]
    rw [← hfilter']
    unfold HashTable.setRevoke
    by_cases hi : i = hash b
    · subst hi
      rw [update_self, hset, if_neg hcb]
    · rw [update_of_ne hi]

theorem kept_ofRecords (hash : BitVec 64 → ℕ) (hrs : ∀ r ∈ rs, (r.2 - w).toNat < 2 ^ 31) :
    Kept hash w rs (.ofRecords hash rs) := by
  induction rs using reverseRecOn with
  | nil => exact fun b => ⟨none, by simp, by simp [Revokes], by simp [HashTable.ofRecords]⟩
  | append_singleton rs r ih =>
    rw [HashTable.ofRecords, foldl_append]
    exact (ih fun r hr => hrs r (mem_append_left _ hr)).set (hrs r (by simp))

/-- For sequence numbers from a window of half the numbers, a block is revoked iff some record
revokes it, and a block has at most one record. -/
theorem testRevoke_exact (hash : BitVec 64 → ℕ) (w : Tid) (rs : List (BitVec 64 × Tid))
    (hrs : ∀ r ∈ rs, (r.2 - w).toNat < 2 ^ 31) :
    (∀ b x, (x - w).toNat < 2 ^ 31 →
      ((HashTable.ofRecords hash rs).testRevoke hash b x = true ↔
        ∃ y, (b, y) ∈ rs ∧ (x - w).toNat ≤ (y - w).toNat)) ∧
    ∀ (b : BitVec 64) i, ((HashTable.ofRecords hash rs i).filter (·.blocknr = b.toNat)).length ≤
      if i = hash b then 1 else 0 := by
  have hkept := kept_ofRecords hash hrs
  constructor
  · intro b x hx
    obtain ⟨a, ha, hrev, hfilter⟩ := hkept b
    refine Iff.trans ?_ (hrev _).symm
    rw [HashTable.testRevoke, testRevoke, find_of_filter ((hfilter _).trans (if_pos rfl))]
    cases a with
    | none => simp
    | some y =>
      simp only [Option.map_some, Option.mem_def, Option.some.injEq, exists_eq_left',
        Bool.not_eq_true', ← Bool.not_eq_true, tidGt_iff hx (ha y rfl), not_lt]
  · intro b i
    obtain ⟨a, -, -, hfilter⟩ := hkept b
    refine (congrArg length (hfilter i)).trans_le ?_
    split_ifs
    · cases a <;> simp
    · rfl

/-- Two blocks in one list, and a block whose second record is before the wrap of its first one. -/
theorem testRevoke_exact_wrap :
    (HashTable.ofRecords (fun _ => 0) [(5, 3), (7, -8), (5, -7)]).testRevoke (fun _ => 0) 5 2 =
      true :=
  ((testRevoke_exact (fun _ => 0) (-16) _
    (by rw [forall_mem_cons, forall_mem_cons, forall_mem_singleton]; decide)).1 5 2 (by decide)).mpr
    ⟨3, by decide, by decide⟩

end VMsep.Jbd2
