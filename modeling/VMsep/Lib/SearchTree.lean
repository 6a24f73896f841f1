import Mathlib.Data.List.TakeWhile
import Mathlib.Data.Tree.Basic

/-! The nodes of a tree in order, where a search ends that goes left or right by a comparison, and
where a new node is linked. How the tree is balanced does not matter here. -/

namespace VMsep.Lib

open List Option

variable {α : Type*} {t : BinaryTree α} {k : α → Ordering} {l m : List α} {a : α} {p : α → Bool}

def inorder : BinaryTree α → List α
  | .nil => []
  | .node a l r => inorder l ++ a :: inorder r

@[simp]
theorem inorder_nil : inorder (.nil : BinaryTree α) = [] := rfl

@[simp]
theorem inorder_node (a : α) (l r : BinaryTree α) :
    inorder (.node a l r) = inorder l ++ a :: inorder r := rfl

theorem inorder_map {β : Type*} (f : α → β) (t : BinaryTree α) :
    inorder (t.map f) = (inorder t).map f := by
  induction t with
  | nil => rfl
  | node a l r ihl ihr => simp [BinaryTree.map, ihl, ihr]

structure Balance (α : Type*) where
  shape : List α → BinaryTree α
  inorder_shape : ∀ l, inorder (shape l) = l

def Balance.right : Balance α where
  shape := foldr (fun a t => .node a .nil t) .nil
  inorder_shape l := by
    induction l with
    | nil => rfl
    | cons a l ih =>
      rw [foldr_cons, inorder_node, ih]
      rfl

def Balance.of [DecidableEq α] (t : BinaryTree α) : Balance α where
  shape l := if inorder t = l then t else Balance.right.shape l
  inorder_shape l := by
    split_ifs with h
    · exact h
    · exact Balance.right.inorder_shape l

/-- The descent by a comparison that may fail: whether it has found a node, and the last node it
has visited. -/
def descend (c : α → Option Ordering) : BinaryTree α → Option α → Option (Bool × Option α)
  | .nil, last => some (false, last)
  | .node a l r, _ =>
    (c a).bind fun
      | .lt => descend c l (some a)
      | .gt => descend c r (some a)
      | .eq => some (true, some a)

def linkNode (left : α → Bool) (x : α) : BinaryTree α → BinaryTree α
  | .nil => .node x .nil .nil
  | .node a l r =>
    if left a then .node a (linkNode left x l) r else .node a l (linkNode left x r)

theorem linkNode_inorder {left : α → Bool} {x : α}
    (h : (inorder t).Pairwise fun a b => left a = true → left b = true) :
    ∃ l m, inorder t = l ++ m ∧ inorder (linkNode left x t) = l ++ x :: m ∧
      (∀ a ∈ l, left a = false) ∧ ∀ a ∈ m, left a = true := by
  induction t with
  | nil => exact ⟨[], [], rfl, rfl, by simp, by simp⟩
  | node a tl tr ihl ihr =>
    obtain ⟨hl, hr, hlr⟩ := pairwise_append.mp h
    obtain ⟨har, hr⟩ := pairwise_cons.mp hr
    unfold linkNode
    by_cases ha : left a = true
    · obtain ⟨l, m, heq, hlink, hno, hyes⟩ := ihl hl
      refine ⟨l, m ++ a :: inorder tr, by simp [heq], by simp [ha, hlink], hno, ?_⟩
      intro b hb
      rcases mem_append.mp hb with hb | hb
      · exact hyes b hb
      rcases mem_cons.mp hb with rfl | hb
      · exact ha
      · exact har b hb ha
    · obtain ⟨l, m, heq, hlink, hno, hyes⟩ := ihr hr
      refine ⟨inorder tl ++ a :: l, m, by simp [heq], by simp [ha, hlink], ?_, hyes⟩
      intro b hb
      rcases mem_append.mp hb with hb | hb
      · by_contra hb'
        exact ha (hlr b hb a mem_cons_self (by simpa using hb'))
      rcases mem_cons.mp hb with rfl | hb
      · simpa using ha
      · exact hno b hb

structure Cut (k : α → Ordering) (nodes l : List α) (mid : Option α) (m : List α) : Prop where
  eq : nodes = l ++ (mid.toList ++ m)
  before : ∀ a ∈ l, k a = .gt
  found : ∀ a ∈ mid, k a = .eq
  after : ∀ a ∈ m, k a = .lt

theorem Cut.nil_of_nil {nodes : List α} {mid : Option α} (h : Cut k nodes l mid m)
    (hnil : nodes = []) : l = [] ∧ m = [] := by
  have heq := h.eq
  rw [hnil] at heq
  obtain ⟨hl, hm⟩ := append_eq_nil_iff.mp heq.symm
  exact ⟨hl, (append_eq_nil_iff.mp hm).2⟩

/-- The descent finds the element, or ends beside its place. -/
theorem descend_spec {c : α → Option Ordering} (hc : ∀ a ∈ inorder t, c a = some (k a))
    (hcut : (inorder t).Pairwise fun a b => k a = .gt ∨ k b = .lt) (last : Option α) :
    ∃ l mid m, Cut k (inorder t) l mid m ∧
      ((∃ a, mid = some a ∧ descend c t last = some (true, some a)) ∨
        mid = none ∧ ∃ last', descend c t last = some (false, last') ∧
          (inorder t = [] ∧ last' = last ∨ (∃ l' a, l = l' ++ [a] ∧ last' = some a) ∨
            ∃ a m', m = a :: m' ∧ last' = some a)) := by
  induction t generalizing last with
  | nil =>
    exact ⟨[], none, [], ⟨rfl, by simp, by simp, by simp⟩, .inr ⟨rfl, last, rfl, .inl ⟨rfl, rfl⟩⟩⟩
  | node a tl tr ihl ihr =>
    obtain ⟨hl, hr, hlr⟩ := pairwise_append.mp hcut
    obtain ⟨har, hr⟩ := pairwise_cons.mp hr
    have hca := hc a (by simp)
    cases hk : k a with
    | eq =>
      refine ⟨inorder tl, some a, inorder tr, ⟨rfl, ?_, ?_, ?_⟩, .inl ⟨a, rfl, ?_⟩⟩
      · exact fun b hb => (hlr b hb a mem_cons_self).resolve_right (by simp [hk])
      · intro b hb
        cases hb
        exact hk
      · exact fun b hb => (har b hb).resolve_left (by simp [hk])
      · simp only [descend, hca, hk, bind_some]
    | lt =>
      have hdesc : descend c (.node a tl tr) last = descend c tl (some a) := by
        simp only [descend, hca, hk, bind_some]
      obtain ⟨l, mid, m, hcutl, hres⟩ := ihl (fun b hb => hc b (by simp [hb])) hl (some a)
      refine ⟨l, mid, m ++ a :: inorder tr, ⟨by simp [hcutl.eq], hcutl.before, hcutl.found, ?_⟩, ?_⟩
      · intro b hb
        rcases mem_append.mp hb with hb | hb
        · exact hcutl.after b hb
        rcases mem_cons.mp hb with rfl | hb
        · exact hk
        · exact (har b hb).resolve_left (by simp [hk])
      · rw [hdesc]
        rcases hres with hfound | ⟨hmid, last', heq, hend⟩
        · exact .inl hfound
        refine .inr ⟨hmid, last', heq, ?_⟩
        rcases hend with ⟨hnil, rfl⟩ | hleft | ⟨b, m', rfl, rfl⟩
        · have hm : m = [] := hcutl.nil_of_nil hnil |>.2
          exact .inr (.inr ⟨a, inorder tr, by rw [hm]; rfl, rfl⟩)
        · exact .inr (.inl hleft)
        · exact .inr (.inr ⟨b, m' ++ a :: inorder tr, rfl, rfl⟩)
    | gt =>
      have hdesc : descend c (.node a tl tr) last = descend c tr (some a) := by
        simp only [descend, hca, hk, bind_some]
      obtain ⟨l, mid, m, hcutr, hres⟩ := ihr (fun b hb => hc b (by simp [hb])) hr (some a)
      refine ⟨inorder tl ++ a :: l, mid, m,
        ⟨by simp [hcutr.eq], ?_, hcutr.found, hcutr.after⟩, ?_⟩
      · intro b hb
        rcases mem_append.mp hb with hb | hb
        · exact (hlr b hb a mem_cons_self).resolve_right (by simp [hk])
        rcases mem_cons.mp hb with rfl | hb
        · exact hk
        · exact hcutr.before b hb
      · rw [hdesc]
        rcases hres with hfound | ⟨hmid, last', heq, hend⟩
        · exact .inl hfound
        refine .inr ⟨hmid, last', heq, ?_⟩
        rcases hend with ⟨hnil, rfl⟩ | ⟨l', b, rfl, rfl⟩ | hright
        · have hl' : l = [] := hcutr.nil_of_nil hnil |>.1
          exact .inr (.inl ⟨inorder tl, a, by rw [hl'], rfl⟩)
        · exact .inr (.inl ⟨inorder tl ++ a :: l', b, by simp, rfl⟩)
        · exact .inr (.inr hright)

structure Place (α : Type*) where
  before : List α
  found : Option α
  after : List α

def locate (k : α → Ordering) : BinaryTree α → Place α
  | .nil => ⟨[], none, []⟩
  | .node a l r =>
    match k a with
    | .lt => { locate k l with after := (locate k l).after ++ a :: inorder r }
    | .gt => { locate k r with before := inorder l ++ a :: (locate k r).before }
    | .eq => ⟨inorder l, some a, inorder r⟩

def replaceFound (k : α → Ordering) (x : α) : BinaryTree α → BinaryTree α
  | .nil => .nil
  | .node a l r =>
    match k a with
    | .lt => .node a (replaceFound k x l) r
    | .gt => .node a l (replaceFound k x r)
    | .eq => .node x l r

theorem locate_eq (k : α → Ordering) (t : BinaryTree α) :
    inorder t = (locate k t).before ++ ((locate k t).found.toList ++ (locate k t).after) := by
  induction t with
  | nil => rfl
  | node a l r ihl ihr =>
    unfold locate
    cases k a with
    | lt =>
      rw [inorder_node, ihl]
      simp
    | gt =>
      rw [inorder_node, ihr]
      simp
    | eq => rfl

theorem found_eq (h : (locate k t).found = some a) : k a = .eq := by
  induction t with
  | nil => cases h
  | node b l r ihl ihr =>
    unfold locate at h
    cases hb : k b with
    | lt =>
      rw [hb] at h
      exact ihl h
    | gt =>
      rw [hb] at h
      exact ihr h
    | eq =>
      rw [hb] at h
      cases h
      exact hb

theorem inorder_replaceFound (x : α) (h : (locate k t).found = some a) :
    inorder (replaceFound k x t) = (locate k t).before ++ x :: (locate k t).after := by
  induction t with
  | nil => cases h
  | node b l r ihl ihr =>
    unfold locate replaceFound
    unfold locate at h
    cases hb : k b with
    | lt =>
      rw [hb] at h
      rw [inorder_node, ihl h]
      simp
    | gt =>
      rw [hb] at h
      rw [inorder_node, ihr h]
      simp
    | eq => rfl

def OrderedBy (k : α → Ordering) (l : List α) : Prop :=
  l.Pairwise fun a b => (k a = .lt → k b = .lt) ∧ (k b = .gt → k a = .gt)

theorem locate_none (hk : OrderedBy k (inorder t)) (h : (locate k t).found = none) :
    (∀ a ∈ (locate k t).before, k a = .gt) ∧ ∀ a ∈ (locate k t).after, k a = .lt := by
  induction t with
  | nil => simp [locate]
  | node b l r ihl ihr =>
    obtain ⟨hl, hr, hlr⟩ := pairwise_append.mp hk
    obtain ⟨hbr, hr⟩ := pairwise_cons.mp hr
    unfold locate at h ⊢
    cases hb : k b with
    | lt =>
      rw [hb] at h
      obtain ⟨hbefore, hafter⟩ := ihl hl h
      refine ⟨hbefore, fun a ha => ?_⟩
      rcases mem_append.mp ha with ha | ha
      · exact hafter a ha
      rcases mem_cons.mp ha with rfl | ha
      · exact hb
      · exact (hbr a ha).1 hb
    | gt =>
      rw [hb] at h
      obtain ⟨hbefore, hafter⟩ := ihr hr h
      refine ⟨fun a ha => ?_, hafter⟩
      rcases mem_append.mp ha with ha | ha
      · exact (hlr a ha b mem_cons_self).2 hb
      rcases mem_cons.mp ha with rfl | ha
      · exact hb
      · exact hbefore a ha
    | eq =>
      rw [hb] at h
      cases h

theorem found_isSome_iff (hk : OrderedBy k (inorder t)) :
    (locate k t).found.isSome ↔ ∃ a ∈ inorder t, k a = .eq := by
  constructor
  · intro h
    obtain ⟨a, ha⟩ := isSome_iff_exists.mp h
    refine ⟨a, ?_, found_eq ha⟩
    rw [locate_eq k t, ha]
    simp
  · rintro ⟨a, ha, heq⟩
    by_contra hnone
    rw [not_isSome_iff_eq_none] at hnone
    obtain ⟨hbefore, hafter⟩ := locate_none hk hnone
    rw [locate_eq k t, hnone] at ha
    rcases mem_append.mp ha with ha | ha
    · rw [hbefore a ha] at heq
      cases heq
    · rw [hafter a (by simpa using ha)] at heq
      cases heq

/-- The node after the first one with a property, `rb_next`. -/
def nextOf (p : α → Bool) (l : List α) : Option α := (l.dropWhile fun a => !p a).tail.head?

/-- The node before the first one with a property, `rb_prev`. -/
def prevOf (p : α → Bool) (l : List α) : Option α := (l.takeWhile fun a => !p a).getLast?

theorem dropWhile_append_cons (hl : ∀ b ∈ l, p b = false) (ha : p a = true) :
    (l ++ a :: m).dropWhile (fun b => !p b) = a :: m := by
  induction l with
  | nil => simp [ha]
  | cons b l ih =>
    rw [cons_append, dropWhile_cons_of_pos (by simp [hl b mem_cons_self])]
    exact ih fun c hc => hl c (mem_cons_of_mem _ hc)

theorem nextOf_append (hl : ∀ b ∈ l, p b = false) (ha : p a = true) :
    nextOf p (l ++ a :: m) = m.head? := by
  unfold nextOf
  rw [dropWhile_append_cons hl ha, tail_cons]

theorem prevOf_append (hl : ∀ b ∈ l, p b = false) (ha : p a = true) :
    prevOf p (l ++ a :: m) = l.getLast? := by
  unfold prevOf
  have htake : (l ++ a :: m).takeWhile (fun b => !p b) = l := by
    induction l with
    | nil => simp [ha]
    | cons b l ih =>
      rw [cons_append, takeWhile_cons_of_pos (by simp [hl b mem_cons_self]),
        ih fun c hc => hl c (mem_cons_of_mem _ hc)]
  rw [htake]

end VMsep.Lib
