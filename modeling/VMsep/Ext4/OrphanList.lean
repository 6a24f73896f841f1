import VMsep.Lib.Links
import VMsep.Lib.SearchTree
import Mathlib.Data.List.Induction

/-! Orphan inodes are on a list in memory and on a chain on disk, which starts in the superblock and
goes through `NEXT_ORPHAN` (the field `i_dtime`) of the inodes. The journal calls succeed, and what
is in the buffers when a handle stops is what a crash finds on disk. -/

namespace VMsep.Ext4

open Lib Function List List.Sublist

/-- `s_orphan` with its first element first, and the fields that the chain on disk is made of. -/
structure OrphanState where
  sFirstIno : ℕ
  sInodesCount : ℕ
  sLastOrphan : ℕ
  nextOrphan : ℕ → ℕ
  sOrphan : List ℕ

namespace OrphanState

/-- `ext4_orphan_add`; `bad` is `is_bad_inode`. -/
def orphanAdd (s : OrphanState) (bad : Bool) (ino : ℕ) : OrphanState :=
  if bad then s
  else if ino ∈ s.sOrphan then s
  else
    let s :=
      if s.nextOrphan ino = 0 ∨ s.sInodesCount < s.nextOrphan ino then
        { s with
          nextOrphan := update s.nextOrphan ino s.sLastOrphan
          sLastOrphan := ino }
      else s
    { s with sOrphan := ino :: s.sOrphan }

/-- `ext4_orphan_del`; without a handle the inode only leaves the list in memory. -/
def orphanDel (s : OrphanState) (handle : Bool) (ino : ℕ) : OrphanState :=
  if ino ∈ s.sOrphan then
    let prev := prevOf (fun i => i = ino) s.sOrphan
    let inoNext := s.nextOrphan ino
    let s := { s with sOrphan := s.sOrphan.erase ino }
    if handle then
      match prev with
      | none =>
        { s with
          sLastOrphan := inoNext
          nextOrphan := update s.nextOrphan ino 0 }
      | some iPrev =>
        { s with
          nextOrphan := update (update s.nextOrphan iPrev inoNext) ino 0 }
    else s
  else s

/-- `ext4_orphan_get` finds the inode; `readable` says that it is in use and can be read. -/
def orphanGet (s : OrphanState) (readable : ℕ → Bool) (ino : ℕ) : Bool :=
  s.sFirstIno ≤ ino ∧ ino ≤ s.sInodesCount ∧ readable ino ∧ s.nextOrphan ino ≤ s.sInodesCount

/-- The loop of `ext4_orphan_cleanup`: the inodes that it has processed, and the state it leaves.
Both the truncation of an inode and its deletion end with `ext4_orphan_del`. -/
def orphanCleanup (readable : ℕ → Bool) : ℕ → OrphanState → Option (List ℕ × OrphanState)
  | fuel, s =>
    if s.sLastOrphan = 0 then some ([], s)
    else
      match fuel with
      | 0 => none
      | fuel + 1 =>
        let ino := s.sLastOrphan
        if s.orphanGet readable ino then
          (orphanCleanup readable fuel
            ({ s with sOrphan := ino :: s.sOrphan }.orphanDel true ino)).map fun r =>
              (ino :: r.1, r.2)
        else some ([], { s with sLastOrphan := 0 })

def crash (s : OrphanState) : OrphanState := { s with sOrphan := [] }

end OrphanState

inductive OrphanAct where
  | add (bad : Bool) (ino : ℕ)
  | del (handle : Bool) (ino : ℕ)
  deriving DecidableEq

def OrphanAct.ino : OrphanAct → ℕ
  | .add _ ino | .del _ ino => ino

def OrphanState.step (s : OrphanState) : OrphanAct → OrphanState
  | .add bad ino => s.orphanAdd bad ino
  | .del handle ino => s.orphanDel handle ino

def OrphanState.run (s : OrphanState) (as : List OrphanAct) : OrphanState := as.foldl step s

structure OrphanState.Start (s : OrphanState) : Prop where
  last : s.sLastOrphan = 0
  list : s.sOrphan = []
  next : ∀ i, s.nextOrphan i = 0 ∨ s.sInodesCount < s.nextOrphan i

/-- Where an inode that is not on the list may be added: it is not on the chain either, with an
empty `NEXT_ORPHAN`, or it is on the chain in front of the inodes on the list, and not its last. -/
def OrphanState.Addable (s : OrphanState) (ino : ℕ) : Prop :=
  ino ∈ s.sOrphan ∨ ∃ l, Follows s.nextOrphan 0 s.sLastOrphan l ∧
    ((ino ∉ l ∧ (s.nextOrphan ino = 0 ∨ s.sInodesCount < s.nextOrphan ino)) ∨
      ∃ a b, l = a ++ ino :: b ∧ b ≠ [] ∧ s.sOrphan ⊆ b)

/-- Each inode is added where it may be. -/
def OrphanState.AddsFit (s : OrphanState) (as : List OrphanAct) : Prop :=
  ∀ i ino, as[i]? = some (.add false ino) → (s.run (as.take i)).Addable ino

/-- The chain on disk ends, and every inode on the list is on it. -/
def OrphanState.OnChain (s : OrphanState) : Prop :=
  ∃ l, Follows s.nextOrphan 0 s.sLastOrphan l ∧ s.sOrphan ⊆ l

/-- After the calls `as`, the chain on disk has the inodes `l`: the list in memory is part of it, in
order, and only inodes that were taken off without a handle are on the chain alone. -/
structure Chained (as : List OrphanAct) (s : OrphanState) (l : List ℕ) : Prop where
  follows : Follows s.nextOrphan 0 s.sLastOrphan l
  sublist : s.sOrphan.Sublist l
  count : ∀ i ∈ l, i ≤ s.sInodesCount
  left : ∀ i ∈ l, i ∈ s.sOrphan ∨ .del false i ∈ as
  next : ∀ i, i ∉ l → .del false i ∉ as →
    s.nextOrphan i = 0 ∨ s.sInodesCount < s.nextOrphan i

namespace Chained

variable {as : List OrphanAct} {s : OrphanState} {l : List ℕ} {ino : ℕ}

theorem start (h : s.Start) : Chained [] s [] where
  follows := h.last
  sublist := by rw [h.list]
  count := by simp
  left := by simp
  next i _ _ := h.next i

theorem same (h : Chained as s l) (a : OrphanAct) : Chained (as ++ [a]) s l where
  follows := h.follows
  sublist := h.sublist
  count := h.count
  left i hi := (h.left i hi).imp id fun hd => mem_append_left _ hd
  next i hi hd := h.next i hi fun hd' => hd (mem_append_left _ hd')

theorem next_le (h : Chained as s l) {i : ℕ} (hi : i ∈ l) : s.nextOrphan i ≤ s.sInodesCount := by
  rcases h.follows.next_mem i hi with hz | hmem
  · rw [hz]
    exact Nat.zero_le _
  · exact h.count _ hmem

theorem push (h : Chained as s l) (hino : 0 < ino) (hcount : ino ≤ s.sInodesCount)
    (hout : ino ∉ l) : Chained (as ++ [.add false ino])
      { s with
        nextOrphan := update s.nextOrphan ino s.sLastOrphan
        sLastOrphan := ino
        sOrphan := ino :: s.sOrphan } (ino :: l) := by
  refine ⟨⟨rfl, by omega, ?_⟩, h.sublist.cons_cons ino, ?_, ?_, ?_⟩
  · change Leads (update s.nextOrphan ino s.sLastOrphan) 0
      (update s.nextOrphan ino s.sLastOrphan ino) l 0
    rw [update_self]
    refine h.follows.congr fun i hi => update_of_ne ?_ _ _
    rintro rfl
    exact hout hi
  · exact forall_mem_cons.mpr ⟨hcount, h.count⟩
  · refine forall_mem_cons.mpr ⟨.inl mem_cons_self, fun i hi => ?_⟩
    exact (h.left i hi).imp (mem_cons_of_mem _) fun hd => mem_append_left _ hd
  · intro i hi hd
    have hne : i ≠ ino := fun heq => hi (heq ▸ mem_cons_self)
    change update s.nextOrphan ino s.sLastOrphan i = 0 ∨
      _ < update s.nextOrphan ino s.sLastOrphan i
    rw [update_of_ne hne]
    exact h.next i (fun hl => hi (mem_cons_of_mem _ hl)) fun hd' =>
      hd (mem_append_left _ hd')

theorem comeBack {a b : List ℕ} (h : Chained as s (a ++ ino :: b)) (hfront : s.sOrphan ⊆ b) :
    Chained (as ++ [.add false ino]) { s with sOrphan := ino :: s.sOrphan } (a ++ ino :: b) where
  follows := h.follows
  sublist := by
    have hnd := nodup_append.mp h.follows.nodup
    have hout : ∀ i ∈ b, i ∉ a := fun i hi ha => hnd.2.2 i ha i (mem_cons_of_mem _ hi) rfl
    have hino : ino ∉ b := (nodup_cons.mp hnd.2.1).1
    -- the part of the chain behind the inode is what is left when the rest is filtered out
    have hfilter : (a ++ ino :: b).filter (· ∈ b) = b := by
      rw [filter_append, filter_cons_of_neg (by simpa using hino),
        filter_eq_nil_iff.mpr (by simpa using fun i ha hb => hout i hb ha), nil_append]
      exact filter_eq_self.mpr (by simp)
    have hlist : s.sOrphan.filter (· ∈ b) = s.sOrphan :=
      filter_eq_self.mpr fun i hi => decide_eq_true (hfront hi)
    have hsub := h.sublist.filter (· ∈ b)
    rw [hfilter, hlist] at hsub
    exact (hsub.cons_cons ino).trans (sublist_append_right a _)
  count := h.count
  left i hi := (h.left i hi).imp (mem_cons_of_mem _) fun hd => mem_append_left _ hd
  next i hi hd := h.next i hi fun hd' => hd (mem_append_left _ hd')

theorem next_cons {a b : List ℕ} (h : Chained as s (a ++ ino :: b)) :
    Follows s.nextOrphan 0 (s.nextOrphan ino) b := by
  obtain ⟨-, -, -, -, hb⟩ := leads_append.mp h.follows
  exact hb

theorem next_pos {a b : List ℕ} (h : Chained as s (a ++ ino :: b)) (hb : b ≠ []) :
    ¬ (s.nextOrphan ino = 0 ∨ s.sInodesCount < s.nextOrphan ino) := by
  have hle := h.next_le (i := ino) (by simp)
  obtain ⟨c, b, rfl⟩ := exists_cons_of_ne_nil hb
  obtain ⟨hc, hpos, -⟩ := h.next_cons
  omega

theorem add (h : Chained as s l) (bad : Bool) (hino : 0 < ino) (hcount : ino ≤ s.sInodesCount)
    (hfit : bad = false → s.Addable ino) :
    ∃ l', Chained (as ++ [.add bad ino]) (s.orphanAdd bad ino) l' := by
  unfold OrphanState.orphanAdd
  cases bad with
  | true =>
    rw [if_pos rfl]
    exact ⟨l, h.same _⟩
  | false =>
  rw [if_neg Bool.false_ne_true]
  by_cases hmem : ino ∈ s.sOrphan
  · rw [if_pos hmem]
    exact ⟨l, h.same _⟩
  rw [if_neg hmem]
  obtain ⟨l', hl', hplace⟩ := (hfit rfl).resolve_left hmem
  obtain rfl := h.follows.unique hl'
  obtain ⟨hout, hempty⟩ | ⟨a, b, rfl, hb, hfront⟩ := hplace
  · rw [if_pos hempty]
    exact ⟨_, h.push hino hcount hout⟩
  · rw [if_neg (h.next_pos hb)]
    exact ⟨_, h.comeBack hfront⟩

/-- What goes wrong elsewhere: the inode leads to itself, or is not on the chain; if other inodes
are in front of it, its removal takes them off the chain too. -/
theorem add_elsewhere (h : Chained as s l) (hnot : ¬ s.Addable ino) :
    ∃ bs, (∀ b ∈ bs, b = .del true ino) ∧ ¬ ((s.orphanAdd false ino).run bs).OnChain := by
  have hmem : ino ∉ s.sOrphan := fun hmem => hnot (.inl hmem)
  have hadd : s.orphanAdd false ino = _ := if_neg hmem
  by_cases hl : ino ∈ l
  · obtain ⟨a, b, rfl⟩ := append_of_mem hl
    by_cases hb : b = []
    · subst hb
      have hlast : s.nextOrphan ino = 0 := h.next_cons
      rw [if_pos (.inl hlast)] at hadd
      refine ⟨[], by simp, ?_⟩
      rw [hadd]
      rintro ⟨l', hl', -⟩
      have hnd := hl'.nodup
      cases l' with
      | nil =>
        obtain rfl : ino = 0 := hl'
        obtain ⟨-, -, -, hne, -⟩ := leads_append.mp h.follows
        exact hne rfl
      | cons _ l' =>
        obtain ⟨rfl, -, hl'⟩ := hl'
        have hself : Leads (update s.nextOrphan ino s.sLastOrphan) 0
          (update s.nextOrphan ino s.sLastOrphan ino) l' 0 := hl'
        rw [update_self] at hself
        have hold : Follows s.nextOrphan 0 s.sLastOrphan l' := by
          refine hself.congr fun i hi => (update_of_ne ?_ _ _).symm
          rintro rfl
          exact (nodup_cons.mp hnd).1 hi
        rw [hold.unique h.follows] at hnd
        exact (nodup_cons.mp hnd).1 hl
    · rw [if_neg (h.next_pos hb)] at hadd
      refine ⟨[.del true ino], by simp, ?_⟩
      have hdel : (s.orphanAdd false ino).run [.del true ino] =
          { s with
            sLastOrphan := s.nextOrphan ino
            nextOrphan := update s.nextOrphan ino 0 } := by
        rw [hadd]
        change OrphanState.orphanDel _ true ino = _
        unfold OrphanState.orphanDel
        simp [prevOf]
      rw [hdel]
      rintro ⟨l', hl', hsub⟩
      rw [hl'.unique h.follows.drop] at hsub
      exact hnot (.inr ⟨_, h.follows, .inr ⟨a, b, rfl, hb, hsub⟩⟩)
  · have hnext : ¬ (s.nextOrphan ino = 0 ∨ s.sInodesCount < s.nextOrphan ino) := fun hempty =>
      hnot (.inr ⟨l, h.follows, .inl ⟨hl, hempty⟩⟩)
    rw [if_neg hnext] at hadd
    refine ⟨[], by simp, ?_⟩
    rw [hadd]
    rintro ⟨l', hl', hsub⟩
    rw [hl'.unique h.follows] at hsub
    exact hl (hsub mem_cons_self)

theorem left_of_not_addable (h : Chained as s l) (hnot : ¬ s.Addable ino) :
    .del false ino ∈ as := by
  by_contra hd
  by_cases hl : ino ∈ l
  · exact hnot (.inl ((h.left ino hl).resolve_right hd))
  · exact hnot (.inr ⟨l, h.follows, .inl ⟨hl, h.next ino hl hd⟩⟩)

theorem drop (h : Chained as s l) :
    Chained (as ++ [.del false ino]) { s with sOrphan := s.sOrphan.erase ino } l where
  follows := h.follows
  sublist := erase_sublist.trans h.sublist
  count := h.count
  left i hi := by
    by_cases hne : i = ino
    · rw [hne]
      exact .inr (by simp)
    · refine (h.left i hi).imp (fun hs => ?_) fun hd => mem_append_left _ hd
      exact (mem_erase_of_ne hne).mpr hs
  next i hi hd := h.next i hi fun hd' => hd (mem_append_left _ hd')

theorem shrink {s' : OrphanState} {l' : List ℕ} (h : Chained as s l) (hl : l'.Sublist l)
    (hino : ino ∉ l') (hlist : s'.sOrphan = s.sOrphan.erase ino)
    (hcount : s'.sInodesCount = s.sInodesCount)
    (hfollows : Follows s'.nextOrphan 0 s'.sLastOrphan l') (hsub : s'.sOrphan.Sublist l')
    (hnext : ∀ i, i ∉ l' → i ≠ ino → s'.nextOrphan i = s.nextOrphan i)
    (hzero : s'.nextOrphan ino = 0) : Chained (as ++ [.del true ino]) s' l' where
  follows := hfollows
  sublist := hsub
  count i hi := by
    rw [hcount]
    exact h.count i (hl.subset hi)
  left i hi := by
    have hne : i ≠ ino := fun heq => hino (heq ▸ hi)
    refine (h.left i (hl.subset hi)).imp (fun hs => ?_) fun hd => mem_append_left _ hd
    rw [hlist]
    exact (mem_erase_of_ne hne).mpr hs
  next i hi hd := by
    by_cases hne : i = ino
    · rw [hne]
      exact .inl hzero
    have hd' : .del false i ∉ as := fun hd' => hd (mem_append_left _ hd')
    rw [hnext i hi hne, hcount]
    refine h.next i (fun hil => ?_) hd'
    have hs := (h.left i hil).resolve_right hd'
    refine hi (hsub.subset ?_)
    rw [hlist]
    exact (mem_erase_of_ne hne).mpr hs

theorem sublist_split {x : ℕ} {m : List ℕ} (h : (x :: m).Sublist l) :
    ∃ a b, l = a ++ x :: b ∧ m.Sublist b := by
  obtain ⟨r₁, r₂, rfl, hx, hm⟩ := List.cons_sublist_iff.mp h
  obtain ⟨a, b, rfl⟩ := append_of_mem hx
  exact ⟨a, b ++ r₂, by simp, hm.trans (sublist_append_right b r₂)⟩

theorem unlink (h : Chained as s l) (hmem : ino ∈ s.sOrphan) :
    ∃ l', Chained (as ++ [.del true ino]) (s.orphanDel true ino) l' := by
  obtain ⟨m₁, m₂, hout, heq, herase⟩ := exists_erase_eq hmem
  have hprev : prevOf (fun i => i = ino) s.sOrphan = m₁.getLast? := by
    rw [heq]
    exact prevOf_append (fun i hi => decide_eq_false fun hii => hout (hii ▸ hi))
      (decide_eq_true rfl)
  have hsub := h.sublist
  have hfollows := h.follows
  have hnd := h.follows.nodup
  rw [heq] at hsub
  unfold OrphanState.orphanDel
  rw [if_pos hmem, hprev]
  rw [if_pos rfl]
  rcases eq_nil_or_concat m₁ with rfl | ⟨m₁, p, rfl⟩
  · obtain ⟨a, b, rfl, hb⟩ := sublist_split hsub
    have hino : ino ∉ b := (nodup_cons.mp (nodup_append.mp hnd).2.1).1
    refine ⟨b, h.shrink ?_ hino rfl rfl hfollows.drop ?_ (fun i _ hne => ?_) ?_⟩
    · exact (sublist_cons_self ino b).trans (sublist_append_right a _)
    · change (s.sOrphan.erase ino).Sublist b
      rwa [herase]
    · exact update_of_ne hne _ _
    · exact update_self _ _ _
  · rw [concat_eq_append] at *
    rw [getLast?_concat]
    rw [append_assoc] at hsub
    obtain ⟨r₁, r₂, rfl, h₁, h₂⟩ := append_sublist_iff.mp hsub
    obtain ⟨a, b, rfl, hb⟩ := sublist_split h₂
    obtain ⟨k, c, rfl, hc⟩ := sublist_split hb
    rw [← append_assoc] at hfollows hnd
    obtain ⟨-, hpnd, hdisj⟩ := nodup_append.mp hnd
    obtain ⟨hpk, hk⟩ := nodup_cons.mp hpnd
    have hcino : ino ∉ c := (nodup_cons.mp (nodup_append.mp hk).2.1).1
    have hino : ino ∉ (r₁ ++ a) ++ p :: c := by
      intro hi
      rcases mem_append.mp hi with hi | hi
      · exact hdisj ino hi ino (by simp) rfl
      rcases mem_cons.mp hi with rfl | hi
      · exact hpk (by simp)
      · exact hcino hi
    refine ⟨(r₁ ++ a) ++ p :: c, h.shrink ?_ hino rfl rfl hfollows.unlink ?_
      (fun i hi hne => ?_) ?_⟩
    · rw [← append_assoc]
      refine append (refl _) (cons_cons p ?_)
      exact (sublist_cons_self ino c).trans (sublist_append_right k _)
    · change (s.sOrphan.erase ino).Sublist _
      rw [herase, append_assoc]
      refine append ?_ (cons_cons p hc)
      exact h₁.trans (sublist_append_left r₁ a)
    · have hip : i ≠ p := fun hip => hi (by simp [hip])
      change update (update s.nextOrphan p _) ino 0 i = _
      rw [update_of_ne hne, update_of_ne hip]
    · exact update_self _ _ _

theorem del (h : Chained as s l) (handle : Bool) :
    ∃ l', Chained (as ++ [.del handle ino]) (s.orphanDel handle ino) l' := by
  by_cases hmem : ino ∈ s.sOrphan
  · cases handle with
    | true => exact h.unlink hmem
    | false =>
      have heq : s.orphanDel false ino = { s with sOrphan := s.sOrphan.erase ino } := by
        unfold OrphanState.orphanDel
        rw [if_pos hmem]
        rfl
      rw [heq]
      exact ⟨l, h.drop⟩
  · unfold OrphanState.orphanDel
    rw [if_neg hmem]
    exact ⟨l, h.same _⟩

end Chained

namespace OrphanState

variable {s : OrphanState} {as : List OrphanAct} {l : List ℕ}

theorem step_count (s : OrphanState) (a : OrphanAct) :
    (s.step a).sInodesCount = s.sInodesCount ∧ (s.step a).sFirstIno = s.sFirstIno := by
  cases a with
  | add =>
    unfold step orphanAdd
    dsimp only
    split_ifs <;> exact ⟨rfl, rfl⟩
  | del _ ino =>
    unfold step orphanDel
    dsimp only
    split_ifs
    · cases prevOf (fun i => i = ino) s.sOrphan <;> exact ⟨rfl, rfl⟩
    · exact ⟨rfl, rfl⟩
    · exact ⟨rfl, rfl⟩

theorem run_count (s : OrphanState) (as : List OrphanAct) :
    (s.run as).sInodesCount = s.sInodesCount ∧ (s.run as).sFirstIno = s.sFirstIno := by
  unfold run
  induction as generalizing s with
  | nil => exact ⟨rfl, rfl⟩
  | cons a _ ih =>
    rw [foldl_cons, (ih _).1, (ih _).2]
    exact step_count s a

theorem run_concat (s : OrphanState) (as : List OrphanAct) (a : OrphanAct) :
    s.run (as ++ [a]) = (s.run as).step a := by
  unfold run
  rw [foldl_append]
  rfl

theorem run_chained (hs : s.Start) (hino : ∀ a ∈ as, 0 < a.ino ∧ a.ino ≤ s.sInodesCount)
    (hfit : s.AddsFit as) : ∃ l, Chained as (s.run as) l := by
  induction as using reverseRecOn with
  | nil => exact ⟨[], .start hs⟩
  | append_singleton as a ih =>
    have hfit' : s.AddsFit as := by
      intro i ino hi
      have hlt : i < as.length := (List.getElem?_eq_some_iff.mp hi).1
      have := hfit i ino (by rwa [getElem?_append_left hlt])
      rwa [take_append_of_le_length hlt.le] at this
    obtain ⟨l, hl⟩ := ih (fun b hb => hino b (by simp [hb])) hfit'
    rw [run_concat]
    cases a with
    | add bad ino =>
      obtain ⟨hpos, hcount⟩ := hino (.add bad ino) (by simp)
      refine hl.add bad hpos ?_ fun hbad => ?_
      · rw [(run_count s as).1]
        exact hcount
      · have hnew := hfit as.length ino (by simp [hbad])
        rwa [take_left] at hnew
    | del handle => exact hl.del handle

/-- The cleanup visits the inodes of the chain and empties it. -/
theorem orphanCleanup_spec {readable : ℕ → Bool} (hf : Follows s.nextOrphan 0 s.sLastOrphan l)
    (hempty : s.sOrphan = []) (hget : ∀ i ∈ l, s.orphanGet readable i = true) {fuel : ℕ}
    (hfuel : l.length ≤ fuel) :
    ∃ s', orphanCleanup readable fuel s = some (l, s') ∧ s'.sLastOrphan = 0 := by
  induction l generalizing s fuel with
  | nil =>
    refine ⟨s, ?_, hf⟩
    unfold orphanCleanup
    exact if_pos hf
  | cons _ l ih =>
    have hnd := hf.nodup
    obtain ⟨rfl, hne, hrest⟩ := hf
    obtain ⟨fuel, rfl⟩ : ∃ n, fuel = n + 1 := ⟨fuel - 1, by simp at hfuel; omega⟩
    have hother : ∀ j ∈ l, j ≠ s.sLastOrphan := by
      intro j hj hjl
      exact (nodup_cons.mp hnd).1 (hjl ▸ hj)
    -- the inode leaves the head of the chain
    generalize hs1 : ({ s with
      sLastOrphan := s.nextOrphan s.sLastOrphan
      nextOrphan := update s.nextOrphan s.sLastOrphan 0 } : OrphanState) = s1
    have hdel : { s with sOrphan := s.sLastOrphan :: s.sOrphan }.orphanDel true s.sLastOrphan =
        s1 := by
      rw [← hs1]
      unfold orphanDel
      simp [hempty, prevOf]
    have hnew : Follows s1.nextOrphan 0 s1.sLastOrphan l := by
      rw [← hs1]
      exact hrest.congr fun j hj => update_of_ne (hother j hj) _ _
    have hget1 : ∀ j ∈ l, s1.orphanGet readable j = true := by
      intro j hj
      have hj' := hget j (mem_cons_of_mem _ hj)
      unfold orphanGet at hj' ⊢
      rw [← hs1]
      simpa only [update_of_ne (hother j hj)] using hj'
    have hfuel' : l.length ≤ fuel := by simpa using hfuel
    obtain ⟨s', hs', hzero⟩ := ih hnew (by rw [← hs1]; exact hempty) hget1 hfuel'
    refine ⟨s', ?_, hzero⟩
    unfold orphanCleanup
    rw [if_neg hne]
    dsimp only
    rw [if_pos (hget _ mem_cons_self), hdel, hs']
    rfl

end OrphanState

/-- If each inode is added where it may be, the chain on disk ends, has no cycle and holds every
inode that is on the list in memory, and the cleanup after a crash goes through it. The only inodes
that may not be added are some of those that were taken off without a handle, and adding one breaks
the chain, at once or when it is taken off again. -/
theorem orphan_chain (s : OrphanState) (hs : s.Start) (as : List OrphanAct)
    (hino : ∀ a ∈ as, 0 < a.ino ∧ a.ino ≤ s.sInodesCount) (hfit : s.AddsFit as) :
    (∃ l, l.Nodup ∧ Follows (s.run as).nextOrphan 0 (s.run as).sLastOrphan l ∧
      (∀ i ∈ (s.run as).sOrphan, i ∈ l) ∧
      ∀ readable, (∀ i ∈ l, s.sFirstIno ≤ i ∧ readable i = true) →
        ∀ fuel, l.length ≤ fuel →
          ∃ s', OrphanState.orphanCleanup readable fuel (s.run as).crash = some (l, s') ∧
            s'.sLastOrphan = 0) ∧
      ∀ ino, ¬ (s.run as).Addable ino → .del false ino ∈ as ∧
        ∃ bs, (∀ b ∈ bs, b = .del true ino) ∧
          ¬ (s.run (as ++ .add false ino :: bs)).OnChain := by
  obtain ⟨l, h⟩ := OrphanState.run_chained hs hino hfit
  refine ⟨⟨l, h.follows.nodup, h.follows, h.sublist.subset, fun readable hread fuel hfuel => ?_⟩,
    fun ino hnot => ⟨h.left_of_not_addable hnot, ?_⟩⟩
  · refine OrphanState.orphanCleanup_spec (s := (s.run as).crash) h.follows rfl (fun i hi => ?_)
      hfuel
    obtain ⟨hfirst, hok⟩ := hread i hi
    have hcount := h.count i hi
    have hnext := h.next_le hi
    unfold OrphanState.orphanGet OrphanState.crash
    simp only [(OrphanState.run_count s as).2, hfirst, hcount, hok, hnext, decide_true, and_self]
  · obtain ⟨bs, hbs, hoff⟩ := h.add_elsewhere hnot
    refine ⟨bs, hbs, ?_⟩
    rw [OrphanState.run, foldl_append, foldl_cons]
    exact hoff

def noOrphans : OrphanState where
  sFirstIno := 11
  sInodesCount := 100
  sLastOrphan := 0
  nextOrphan _ := 0
  sOrphan := []

def orphanCalls : List OrphanAct :=
  [.add false 12, .add false 13, .del false 13, .add false 13, .del true 13, .del false 13,
    .add false 13, .del false 13, .add false 14, .add false 15, .del true 14]

/-- Inode `13` comes back twice; then it is left on the chain until the inodes around it go, and may
not be added any more. -/
theorem orphan_chain_sample :
    (noOrphans.run orphanCalls).sOrphan = [15, 12] ∧
      (∃ s', OrphanState.orphanCleanup (fun _ => true) 3 (noOrphans.run orphanCalls).crash =
        some ([15, 13, 12], s') ∧ s'.sLastOrphan = 0) ∧
      ∃ bs, (∀ b ∈ bs, b = .del true 13) ∧
        ¬ (noOrphans.run (orphanCalls ++ .add false 13 :: bs)).OnChain := by
  have hstart : noOrphans.Start := ⟨rfl, rfl, fun i => .inl rfl⟩
  have hfit : noOrphans.AddsFit orphanCalls := by
    intro i ino hi
    rcases i with _ | _ | _ | _ | _ | _ | _ | _ | _ | _ | _ | i
    all_goals cases hi
    · exact .inr ⟨[], rfl, .inl (by decide)⟩
    · exact .inr ⟨[12], ⟨rfl, by decide, rfl⟩, .inl (by decide)⟩
    · exact .inr ⟨[13, 12], ⟨rfl, by decide, rfl, by decide, rfl⟩,
        .inr ⟨[], [12], rfl, by decide, by decide⟩⟩
    · exact .inr ⟨[12], ⟨rfl, by decide, rfl⟩, .inl (by decide)⟩
    · exact .inr ⟨[13, 12], ⟨rfl, by decide, rfl, by decide, rfl⟩, .inl (by decide)⟩
    · exact .inr ⟨[14, 13, 12], ⟨rfl, by decide, rfl, by decide, rfl, by decide, rfl⟩,
        .inl (by decide)⟩
  obtain ⟨⟨l, -, hf, -, hclean⟩, hleft⟩ :=
    orphan_chain noOrphans hstart orphanCalls (by decide) hfit
  have hchain : Follows (noOrphans.run orphanCalls).nextOrphan 0
      (noOrphans.run orphanCalls).sLastOrphan [15, 13, 12] :=
    ⟨rfl, by decide, rfl, by decide, rfl, by decide, rfl⟩
  obtain rfl := hf.unique hchain
  refine ⟨rfl, hclean (fun _ => true) (by decide) 3 le_rfl, (hleft 13 ?_).2⟩
  rintro (hmem | ⟨l, hl, ⟨hout, -⟩ | ⟨a, b, rfl, -, hsub⟩⟩)
  · exact absurd hmem (by decide)
  · exact hout (hl.unique hchain ▸ by decide)
  · have hab := hl.unique hchain
    rcases a with _ | ⟨_, _ | ⟨_, a⟩⟩
    all_goals simp [append_eq_cons_iff] at hab
    rw [hab.2] at hsub
    exact absurd hsub (by decide)

/-- An inode that comes back links to itself. -/
theorem orphan_chain_cycle :
    let s := noOrphans.run [.add false 12, .del false 12, .add false 12]
    s.sOrphan = [12] ∧ s.sLastOrphan = 12 ∧ s.nextOrphan 12 = 12 ∧
      ¬ ∃ l, Follows s.nextOrphan 0 s.sLastOrphan l := by
  refine ⟨rfl, rfl, rfl, ?_⟩
  rintro ⟨l, hl⟩
  have hnd := hl.nodup
  cases l with
  | nil => cases hl
  | cons _ l =>
    obtain ⟨rfl, -, hrest⟩ := hl
    cases l with
    | nil => cases hrest
    | cons =>
      obtain ⟨hj, -⟩ := hrest
      refine (nodup_cons.mp hnd).1 ?_
      rw [← hj]
      exact mem_cons_self

end VMsep.Ext4
