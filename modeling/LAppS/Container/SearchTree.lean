import Mathlib.Data.Tree.Basic
import Mathlib.Order.BooleanAlgebra.Set
import Mathlib.Tactic.Tauto

/-!
Ordered sets kept in a search tree, with any comparison. A search walks from the root to a leaf, and the leaf is
given by the number of nodes to its left, so that it is an iterator: the index of the next node, or the number of
nodes for the end. Nothing is assumed of the comparison in the definitions; `Orders` says what a relation must
satisfy for the tree to be the set of the elements put into it.
-/

namespace BinaryTree

variable {α : Type*}

/-- The nodes from the left to the right. -/
def inorder : BinaryTree α → List α
  | nil => []
  | node a l r => l.inorder ++ a :: r.inorder

/-- Walk to the right of the nodes that `p` holds of, and to the left of the others. -/
def descend (p : α → Bool) : BinaryTree α → Nat
  | nil => 0
  | node a l r => if p a then l.numNodes + 1 + r.descend p else l.descend p

/-- A new node at the leaf that the walk ends at. -/
def hang (p : α → Bool) (k : α) : BinaryTree α → BinaryTree α
  | nil => node k nil nil
  | node a l r => if p a then node a l (r.hang p k) else node a (l.hang p k) r

/-- The first node of `node a l r`, and the tree without it. -/
def popFirst (a : α) : BinaryTree α → BinaryTree α → α × BinaryTree α
  | nil, r => (a, r)
  | node b l' r', r => ((popFirst b l' r').1, node a (popFirst b l' r').2 r)

/-- A tree without its root; the next node takes its place. -/
def dropRoot : BinaryTree α → BinaryTree α → BinaryTree α
  | nil, r => r
  | l, nil => l
  | l, node b l' r' => node (popFirst b l' r').1 l (popFirst b l' r').2

/-- The tree without the node at an index. -/
def unlink : BinaryTree α → Nat → BinaryTree α
  | nil, _ => nil
  | node a l r, i =>
    if i < l.numNodes then node a (l.unlink i) r
    else if i = l.numNodes then dropRoot l r
    else node a l (r.unlink (i - (l.numNodes + 1)))

/-- What is done to the shape of a tree after a change: it keeps the sequence of the nodes, and there is nothing to
do with two nodes or less. -/
structure Balancing (α : Type*) where
  rebuild : BinaryTree α → BinaryTree α
  inorder_rebuild : ∀ t, (rebuild t).inorder = t.inorder
  small : ∀ t, t.numNodes ≤ 2 → rebuild t = t

/-- A tree that is left as it is. -/
def Balancing.none : Balancing α := ⟨id, fun _ => rfl, fun _ _ => rfl⟩

/-! ### The operations of an ordered set -/

section Operations

variable (balancing : Balancing α) (lt : α → α → Bool)

/-- The first node that is not before `k`. -/
def lowerBound (k : α) (t : BinaryTree α) : Nat := t.descend (lt · k)

def find (k : α) (t : BinaryTree α) : Option Nat :=
  match t.inorder[t.lowerBound lt k]? with
  | none => none
  | some a => if lt k a then none else some (t.lowerBound lt k)

/-- Only the node before the leaf is asked whether it is before `k`. -/
def emplace (k : α) (t : BinaryTree α) : BinaryTree α :=
  if (t.inorder.take (t.descend (!lt k ·))).getLast?.all (lt · k) then balancing.rebuild (t.hang (!lt k ·) k) else t

def erase (i : Nat) (t : BinaryTree α) : BinaryTree α := balancing.rebuild (t.unlink i)

/-- Erase what is found. -/
def eraseKey (k : α) (t : BinaryTree α) : BinaryTree α :=
  match t.find lt k with
  | none => t
  | some i => t.erase balancing i

end Operations

/-! ### Trees and their sequences -/

@[simp] theorem length_inorder (t : BinaryTree α) : t.inorder.length = t.numNodes := by
  induction t with
  | nil => rfl
  | node a l r ihl ihr =>
    rw [inorder, List.length_append, List.length_cons, ihl, ihr, numNodes]
    omega

theorem descend_le (p : α → Bool) (t : BinaryTree α) : t.descend p ≤ t.numNodes := by
  induction t with
  | nil => exact Nat.le_refl _
  | node a l r ihl ihr =>
    rw [descend, numNodes]
    split <;> omega

/-- Where the nodes of `p` come first, the walk ends behind the last of them. -/
theorem descend_eq_countP {p : α → Bool} {t : BinaryTree α} (h : t.inorder.Pairwise fun a b => p b → p a) :
    t.descend p = t.inorder.countP p := by
  induction t with
  | nil => rfl
  | node a l r ihl ihr =>
    rw [inorder, List.pairwise_append, List.pairwise_cons] at h
    obtain ⟨left, ⟨after, right⟩, before⟩ := h
    rw [descend, inorder, List.countP_append, List.countP_cons]
    by_cases hp : p a = true
    · have all : l.inorder.countP p = l.inorder.length :=
        List.countP_eq_length.mpr fun x hx => before x hx a List.mem_cons_self hp
      rw [if_pos hp, if_pos hp, ihr right, all, length_inorder]
      omega
    · have none : r.inorder.countP p = 0 := List.countP_eq_zero.mpr fun x hx hpx => hp (after x hx hpx)
      rw [if_neg hp, if_neg hp, ihl left, none]
      omega

theorem descend_split {p : α → Bool} {t : BinaryTree α} {us vs : List α} (ht : t.inorder = us ++ vs)
    (hus : ∀ u ∈ us, p u = true) (hvs : ∀ v ∈ vs, p v = false) : t.descend p = us.length := by
  have hvs' : ∀ v ∈ vs, ¬p v = true := fun v hv => by simp [hvs v hv]
  rw [descend_eq_countP, ht, List.countP_append, List.countP_eq_length.mpr hus, List.countP_eq_zero.mpr hvs',
    Nat.add_zero]
  have any : ∀ xs : List α, xs.Pairwise fun _ _ => True := fun xs => List.pairwise_of_forall fun _ _ => trivial
  rw [ht, List.pairwise_append]
  exact ⟨(any us).imp_of_mem fun ha _ _ _ => hus _ ha, (any vs).imp_of_mem fun _ hb _ hpb => absurd hpb (hvs' _ hb),
    fun a ha _ _ _ => hus a ha⟩

/-- The walk turns left at the node that it ends before. -/
theorem not_of_getElem_descend {p : α → Bool} {t : BinaryTree α} {a : α} (h : t.inorder[t.descend p]? = some a) :
    p a = false := by
  induction t with
  | nil => simp [inorder] at h
  | node b l r ihl ihr =>
    rw [inorder, descend] at h
    split at h
    · rw [List.getElem?_append_right (by simp; omega), length_inorder,
        show l.numNodes + 1 + r.descend p - l.numNodes = r.descend p + 1 by omega, List.getElem?_cons_succ] at h
      exact ihr h
    next hp =>
      rcases Nat.lt_or_eq_of_le (descend_le p l) with lt | eq
      · rw [List.getElem?_append_left (by simpa using lt)] at h
        exact ihl h
      · rw [eq, ← length_inorder l, List.getElem?_append_right (Nat.le_refl _), Nat.sub_self,
          List.getElem?_cons_zero, Option.some.injEq] at h
        exact h ▸ Bool.eq_false_iff.mpr hp

theorem inorder_hang (p : α → Bool) (k : α) (t : BinaryTree α) :
    (t.hang p k).inorder = t.inorder.take (t.descend p) ++ k :: t.inorder.drop (t.descend p) := by
  induction t with
  | nil => rfl
  | node a l r ihl ihr =>
    rw [hang, descend, inorder]
    split
    · have behind : l.numNodes + 1 + r.descend p = (l.inorder ++ [a]).length + r.descend p := by simp
      rw [inorder, ihr, List.append_cons l.inorder a r.inorder, behind, List.take_length_add_append,
        List.drop_length_add_append]
      simp
    · have within : l.descend p ≤ l.inorder.length := by
        rw [length_inorder]
        exact descend_le p l
      rw [inorder, ihl, List.take_append_of_le_length within, List.drop_append_of_le_length within]
      simp

theorem popFirst_eq (a : α) (l r : BinaryTree α) :
    (popFirst a l r).1 :: (popFirst a l r).2.inorder = (node a l r).inorder := by
  induction l generalizing a r with
  | nil => rfl
  | node b l' r' ihl _ =>
    have first := ihl b r'
    rw [popFirst, inorder, ← List.cons_append, first]
    simp [inorder]

theorem inorder_dropRoot (l r : BinaryTree α) : (dropRoot l r).inorder = l.inorder ++ r.inorder := by
  cases l with
  | nil => rw [dropRoot]; rfl
  | node a l l' =>
    cases r with
    | nil =>
      rw [dropRoot, inorder, List.append_nil]
      simp
    | node b r r' =>
      rw [dropRoot, inorder, popFirst_eq]
      simp

theorem inorder_unlink (t : BinaryTree α) (i : Nat) : (t.unlink i).inorder = t.inorder.eraseIdx i := by
  induction t generalizing i with
  | nil => rfl
  | node a l r ihl ihr =>
    rw [unlink, inorder]
    split
    next lt => rw [inorder, ihl, List.eraseIdx_append_of_lt_length (by simpa using lt)]
    next ge =>
      rw [List.eraseIdx_append_of_length_le (by simpa using ge), length_inorder]
      split
      next eq => rw [inorder_dropRoot, eq, Nat.sub_self, List.eraseIdx_cons_zero]
      next ne =>
        obtain ⟨j, rfl⟩ := Nat.exists_eq_add_of_lt (Nat.lt_of_le_of_ne (Nat.le_of_not_lt ge) (Ne.symm ne))
        rw [inorder, ihr, show l.numNodes + j + 1 - l.numNodes = j + 1 by omega, List.eraseIdx_cons_succ,
          show l.numNodes + j + 1 - (l.numNodes + 1) = j by omega]

/-! ### Small sets -/

section Small

variable (balancing : Balancing α) {lt : α → α → Bool} {e f : α}

theorem emplace_nil : (nil : BinaryTree α).emplace balancing lt e = node e nil nil :=
  balancing.small _ (by simp [hang])

theorem emplace_before (h : lt f e = true) :
    (node e nil nil).emplace balancing lt f = node e (node f nil nil) nil := by
  have left : (!lt f e) = false := by simp [h]
  simp only [emplace, descend, hang, left]
  exact balancing.small _ (by simp)

theorem emplace_behind (h : lt f e = false) (h' : lt e f = true) :
    (node e nil nil).emplace balancing lt f = node e nil (node f nil nil) := by
  have right : (!lt f e) = true := by simp [h]
  simp only [emplace, descend, hang, right, inorder]
  simp only [numNodes, List.nil_append, if_true, List.take_succ_cons, List.take_nil, List.getLast?_singleton,
    Option.all_some, h']
  exact balancing.small _ (by simp)

theorem emplace_equivalent (h : lt f e = false) (h' : lt e f = false) :
    (node e nil nil).emplace balancing lt f = node e nil nil := by
  simp [emplace, descend, inorder, h, h']

theorem eraseKey_single (h : lt e e = false) : (node e nil nil).eraseKey balancing lt e = nil := by
  have found : (node e nil nil).find lt e = some 0 := by simp [find, lowerBound, descend, inorder, h]
  rw [eraseKey, found]
  exact balancing.small _ (by simp [unlink, dropRoot])

end Small

/-! ### The set of a tree -/

/-- A relation that puts the elements of `S` in an order that the comparison tells. -/
structure Orders (lt : α → α → Bool) (S : Set α) (R : α → α → Prop) : Prop where
  irrefl : ∀ a, lt a a = false
  forward : ∀ {a b}, R a b → lt a b = true
  backward : ∀ {a b}, R a b → lt b a = false
  total : ∀ {a b}, a ∈ S → b ∈ S → a ≠ b → R a b ∨ R b a
  trans : ∀ {a b c}, a ∈ S → b ∈ S → c ∈ S → R a b → R b c → R a c

/-- The tree has the elements of `X`, in order. -/
structure Represents (R : α → α → Prop) (t : BinaryTree α) (X : Set α) : Prop where
  sorted : t.inorder.Pairwise R
  mem_iff : ∀ a, a ∈ t.inorder ↔ a ∈ X

theorem represents_nil (R : α → α → Prop) : Represents R nil ∅ := ⟨.nil, fun _ => by simp [inorder]⟩

namespace Orders

variable {lt : α → α → Bool} {S X : Set α} {R : α → α → Prop} {k : α} {t : BinaryTree α} {xs us vs : List α}

/-- What is before an element and what is behind it. -/
theorem split (o : Orders lt S R) (sorted : xs.Pairwise R) (hxs : ∀ x ∈ xs, x ∈ S) (hk : k ∈ S) :
    ∃ us vs, (xs = us ++ vs ∧ k ∉ xs ∨ xs = us ++ k :: vs) ∧ (∀ u ∈ us, R u k) ∧ ∀ v ∈ vs, R k v := by
  induction xs with
  | nil => exact ⟨[], [], by simp⟩
  | cons a xs ih =>
    have ha := hxs a List.mem_cons_self
    have hxs' : ∀ x ∈ xs, x ∈ S := fun x hx => hxs x (List.mem_cons_of_mem _ hx)
    obtain ⟨after, sorted'⟩ := List.pairwise_cons.mp sorted
    by_cases eq : a = k
    · subst eq
      exact ⟨[], xs, .inr rfl, by simp, after⟩
    rcases o.total ha hk eq with ak | ka
    · obtain ⟨us, vs, parts, hus, hvs⟩ := ih sorted' hxs'
      refine ⟨a :: us, vs, ?_, List.forall_mem_cons.mpr ⟨ak, hus⟩, hvs⟩
      rcases parts with ⟨rfl, notMem⟩ | rfl
      · exact .inl ⟨rfl, List.not_mem_cons_of_ne_of_not_mem (Ne.symm eq) notMem⟩
      · exact .inr rfl
    · have behind : ∀ x ∈ a :: xs, R k x :=
        List.forall_mem_cons.mpr ⟨ka, fun x hx => o.trans hk ha (hxs' x hx) ka (after x hx)⟩
      refine ⟨[], a :: xs, .inl ⟨rfl, fun mem => ?_⟩, by simp, behind⟩
      have self := o.forward (behind k mem)
      rw [o.irrefl] at self
      exact Bool.noConfusion self

theorem lowerBound_split (o : Orders lt S R) (ht : t.inorder = us ++ vs) (hus : ∀ u ∈ us, R u k)
    (hvs : ∀ v ∈ vs, v = k ∨ R k v) : t.lowerBound lt k = us.length := by
  refine descend_split ht (fun u hu => o.forward (hus u hu)) fun v hv => ?_
  rcases hvs v hv with rfl | kv
  · exact o.irrefl v
  · exact o.backward kv

theorem find_new (o : Orders lt S R) (ht : t.inorder = us ++ vs) (hus : ∀ u ∈ us, R u k) (hvs : ∀ v ∈ vs, R k v) :
    t.find lt k = none := by
  rw [find, o.lowerBound_split ht hus fun v hv => .inr (hvs v hv), ht, List.getElem?_append_right (Nat.le_refl _),
    Nat.sub_self]
  cases vs with
  | nil => rfl
  | cons v vs => exact if_pos (o.forward (hvs v List.mem_cons_self))

theorem find_present (o : Orders lt S R) (ht : t.inorder = us ++ k :: vs) (hus : ∀ u ∈ us, R u k)
    (hvs : ∀ v ∈ vs, R k v) : t.find lt k = some us.length := by
  have bound := o.lowerBound_split ht hus (List.forall_mem_cons.mpr ⟨.inl rfl, fun v hv => .inr (hvs v hv)⟩)
  rw [find, bound, ht, List.getElem?_append_right (Nat.le_refl _), Nat.sub_self]
  exact if_neg (by simp [o.irrefl])

/-- The walk of `emplace` goes behind `k` and everything before it. -/
theorem insertion_point (o : Orders lt S R) (ht : t.inorder = us ++ vs) (hus : ∀ u ∈ us, u = k ∨ R u k)
    (hvs : ∀ v ∈ vs, R k v) : t.descend (!lt k ·) = us.length := by
  refine descend_split ht (fun u hu => ?_) fun v hv => by simp [o.forward (hvs v hv)]
  rcases hus u hu with rfl | uk
  · simp [o.irrefl]
  · simp [o.backward uk]

theorem emplace_represents (o : Orders lt S R) (balancing : Balancing α) (rep : Represents R t X)
    (hX : X ⊆ S) (hk : k ∈ S) : Represents R (t.emplace balancing lt k) (insert k X) := by
  obtain ⟨us, vs, ⟨ht, notMem⟩ | ht, hus, hvs⟩ :=
    o.split rep.sorted (fun x hx => hX ((rep.mem_iff x).mp hx)) hk
  · -- a new element
    have point := o.insertion_point ht (fun u hu => .inr (hus u hu)) hvs
    have last : us.getLast?.all (lt · k) = true := by
      cases h : us.getLast? with
      | none => rfl
      | some u => exact o.forward (hus u (List.mem_of_getLast? h))
    have inorder : (t.emplace balancing lt k).inorder = us ++ k :: vs := by
      rw [emplace, point, ht, List.take_left, if_pos last, balancing.inorder_rebuild, inorder_hang, point, ht,
        List.take_left, List.drop_left]
    have sorted := rep.sorted
    rw [ht, List.pairwise_append] at sorted
    refine ⟨?_, fun a => ?_⟩
    · rw [inorder, List.pairwise_append, List.pairwise_cons]
      exact ⟨sorted.1, ⟨hvs, sorted.2.1⟩, fun u hu => List.forall_mem_cons.mpr ⟨hus u hu, sorted.2.2 u hu⟩⟩
    · rw [inorder, Set.mem_insert_iff, ← rep.mem_iff, ht]
      simp only [List.mem_append, List.mem_cons]
      tauto
  · -- an element that is there
    have ht' : t.inorder = (us ++ [k]) ++ vs := by simp [ht]
    have before : ∀ u ∈ us ++ [k], u = k ∨ R u k := by
      intro u hu
      rcases List.mem_append.mp hu with hu | hu
      · exact .inr (hus u hu)
      · exact .inl (List.mem_singleton.mp hu)
    have same : t.emplace balancing lt k = t := by
      rw [emplace, o.insertion_point ht' before hvs, ht', List.take_left, List.getLast?_concat]
      exact if_neg (by simp [o.irrefl])
    have mem : k ∈ X := (rep.mem_iff k).mp (by simp [ht])
    rw [same, Set.insert_eq_of_mem mem]
    exact rep

theorem eraseKey_represents (o : Orders lt S R) (balancing : Balancing α) (rep : Represents R t X)
    (hX : X ⊆ S) (hk : k ∈ S) : Represents R (t.eraseKey balancing lt k) (X \ {k}) := by
  obtain ⟨us, vs, ⟨ht, notMem⟩ | ht, hus, hvs⟩ :=
    o.split rep.sorted (fun x hx => hX ((rep.mem_iff x).mp hx)) hk
  · rw [rep.mem_iff] at notMem
    rw [eraseKey, o.find_new ht hus hvs, Set.sdiff_singleton_eq_self notMem]
    exact rep
  · have inorder : (t.eraseKey balancing lt k).inorder = us ++ vs := by
      rw [eraseKey, o.find_present ht hus hvs]
      show (balancing.rebuild _).inorder = _
      rw [balancing.inorder_rebuild, inorder_unlink, ht, List.eraseIdx_append_of_length_le (Nat.le_refl _),
        Nat.sub_self, List.eraseIdx_cons_zero]
    have sorted := rep.sorted
    rw [ht, List.pairwise_append, List.pairwise_cons] at sorted
    have others : ∀ a ∈ us ++ vs, a ≠ k := by
      rintro a ha rfl
      have self : lt a a = true := by
        rcases List.mem_append.mp ha with ha | ha
        · exact o.forward (hus a ha)
        · exact o.forward (hvs a ha)
      rw [o.irrefl] at self
      exact Bool.noConfusion self
    refine ⟨?_, fun a => ?_⟩
    · rw [inorder, List.pairwise_append]
      exact ⟨sorted.1, sorted.2.1.2, fun u hu v hv => sorted.2.2 u hu v (List.mem_cons_of_mem _ hv)⟩
    · rw [inorder, Set.mem_sdiff, ← rep.mem_iff, ht]
      constructor
      · intro ha
        refine ⟨?_, others a ha⟩
        rcases List.mem_append.mp ha with ha | ha
        · exact List.mem_append_left _ ha
        · exact List.mem_append_right _ (List.mem_cons_of_mem _ ha)
      · rintro ⟨ha, ne⟩
        rcases List.mem_append.mp ha with ha | ha
        · exact List.mem_append_left _ ha
        · exact List.mem_append_right _ ((List.mem_cons.mp ha).resolve_left ne)

end Orders

/-! ### What a set demands of its comparison -/

/-- A strict weak order on `S`, whose ties are elements that mean the same. -/
structure WeakOrder (lt : α → α → Bool) (same : α → α → Prop) (S : Set α) : Prop where
  irrefl : ∀ a ∈ S, lt a a = false
  asymm : ∀ a ∈ S, ∀ b ∈ S, ¬(lt a b = true ∧ lt b a = true)
  trans : ∀ a ∈ S, ∀ b ∈ S, ∀ c ∈ S, lt a b = true → lt b c = true → lt a c = true
  ties : ∀ a ∈ S, ∀ b ∈ S, ∀ c ∈ S, lt a b = false ∧ lt b a = false → lt b c = false ∧ lt c b = false →
    lt a c = false ∧ lt c a = false
  separates : ∀ a ∈ S, ∀ b ∈ S, ¬same a b → ¬(lt a b = false ∧ lt b a = false)

/-- The first is less than the second, and not the other way round. -/
def Less (lt : α → α → Bool) (a b : α) : Prop := lt a b = true ∧ lt b a = false

theorem WeakOrder.less_or_less {lt : α → α → Bool} {same : α → α → Prop} {S : Set α} (order : WeakOrder lt same S)
    {a b : α} (ha : a ∈ S) (hb : b ∈ S) (different : ¬same a b) : Less lt a b ∨ Less lt b a := by
  have notTie := order.separates a ha b hb different
  have notBoth := order.asymm a ha b hb
  cases ab : lt a b with
  | true => exact .inl ⟨ab, Bool.eq_false_iff.mpr fun ba => notBoth ⟨ab, ba⟩⟩
  | false => exact .inr ⟨Bool.ne_false_iff.mp fun ba => notTie ⟨ab, ba⟩, ab⟩

/-- It is enough to look at two elements that do not mean the same, and at circles of three. Elements that mean the
same are ties, and they are alike on the left or on the right of every other element. -/
theorem weakOrder_iff {lt : α → α → Bool} {same : α → α → Prop} {S : Set α} (equivalence : Equivalence same)
    (tie : ∀ a ∈ S, ∀ b ∈ S, same a b → lt a b = false)
    (alike : ∀ a ∈ S, ∀ b ∈ S, same a b → (∀ c, lt a c = lt b c) ∨ ∀ c, lt c a = lt c b) :
    WeakOrder lt same S ↔
      (∀ a ∈ S, ∀ b ∈ S, ¬same a b → Less lt a b ∨ Less lt b a) ∧
      ∀ a ∈ S, ∀ b ∈ S, ∀ c ∈ S, Less lt a b → Less lt b c → ¬Less lt c a := by
  constructor
  · intro order
    refine ⟨fun a ha b hb different => ?_, fun a ha b hb c hc ab bc ca => ?_⟩
    · exact order.less_or_less ha hb different
    · have ac := order.trans a ha b hb c hc ab.1 bc.1
      exact order.asymm a ha c hc ⟨ac, ca.1⟩
  · rintro ⟨pairs, circles⟩
    have asymm : ∀ a ∈ S, ∀ b ∈ S, lt a b = true → Less lt a b := fun a ha b hb ab => by
      by_cases means : same a b
      · rw [tie a ha b hb means] at ab
        cases ab
      · rcases pairs a ha b hb means with less | less
        · exact less
        · rw [less.2] at ab
          cases ab
    have tied : ∀ a ∈ S, ∀ b ∈ S, lt a b = false ∧ lt b a = false → same a b := fun a ha b hb ⟨ab, ba⟩ => by
      by_contra different
      rcases pairs a ha b hb different with less | less
      · exact Bool.false_ne_true (ab.symm.trans less.1)
      · exact Bool.false_ne_true (ba.symm.trans less.1)
    constructor
    case irrefl => exact fun a ha => tie a ha a ha (equivalence.refl a)
    case asymm =>
      rintro a ha b hb ⟨ab, ba⟩
      exact Bool.false_ne_true ((asymm a ha b hb ab).2.symm.trans ba)
    case trans =>
      intro a ha b hb c hc ab bc
      have lessAb := asymm a ha b hb ab
      have lessBc := asymm b hb c hc bc
      by_cases means : same a c
      · -- `b` would stand on both sides of the one meaning
        rcases alike a ha c hc means with left | right
        · rw [left, lessBc.2] at ab
          cases ab
        · rw [← right, lessAb.2] at bc
          cases bc
      · rcases pairs a ha c hc means with less | less
        · exact less.1
        · exact absurd less (circles a ha b hb c hc lessAb lessBc)
    case ties =>
      intro a ha b hb c hc ab bc
      have means := equivalence.trans (tied a ha b hb ab) (tied b hb c hc bc)
      exact ⟨tie a ha c hc means, tie c hc a ha (equivalence.symm means)⟩
    case separates =>
      intro a ha b hb different ab
      exact different (tied a ha b hb ab)

end BinaryTree
