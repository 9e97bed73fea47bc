import Mathlib.Data.List.Basic
import Mathlib.Data.List.Nodup

/-!
# Positions in a tree

A tree is anything with a list of children. A node below the root is named by the child numbers that lead to it.
-/

namespace Tree

variable {α : Type} (children : α → List α)

/-- The node at a position. -/
def subtree : List Nat → α → Option α
  | [], a => some a
  | i :: path, a => (children a)[i]?.bind (subtree path)

variable {children} {a : α}

theorem subtree_append (p q : List Nat) (a : α) :
    subtree children (p ++ q) a = (subtree children p a).bind (subtree children q) := by
  induction p generalizing a with
  | nil => rfl
  | cons i p ih =>
    rw [List.cons_append, subtree, subtree, Option.bind_assoc]
    congr 1
    funext c
    exact ih c

/-- The positions of what is below the children, each child right behind what is below it. -/
def gather (i : Nat) : List (List (List Nat)) → List (List Nat)
  | [] => []
  | below :: rest => below.map (i :: ·) ++ [i] :: gather (i + 1) rest

/-- Every node below the root is listed once, behind all that is below it. -/
structure Exhausts (children : α → List α) (a : α) (paths : List (List Nat)) : Prop where
  distinct : paths.Nodup
  complete : ∀ p, p ∈ paths ↔ p ≠ [] ∧ (subtree children p a).isSome = true
  upwards : paths.Pairwise fun earlier later => ¬earlier <+: later

theorem mem_gather {i : Nat} {blocks : List (List (List Nat))} {p : List Nat} :
    p ∈ gather i blocks ↔ ∃ k below, blocks[k]? = some below ∧ ∃ q, p = (i + k) :: q ∧ (q = [] ∨ q ∈ below) := by
  induction blocks generalizing i with
  | nil => simp [gather]
  | cons below blocks ih =>
    rw [gather, List.mem_append, List.mem_cons, ih, List.mem_map]
    constructor
    · intro h
      obtain ⟨q, hq, rfl⟩ | rfl | ⟨k, below', found, q, rfl, hq⟩ := h
      · exact ⟨0, below, rfl, q, rfl, .inr hq⟩
      · exact ⟨0, below, rfl, [], rfl, .inl rfl⟩
      · exact ⟨k + 1, below', found, q, by rw [Nat.add_right_comm, Nat.add_assoc], hq⟩
    · intro h
      obtain ⟨k, below', found, q, rfl, hq⟩ := h
      cases k with
      | zero =>
        obtain rfl := Option.some.inj found
        rcases hq with rfl | hq
        · exact .inr (.inl rfl)
        · exact .inl ⟨q, hq, rfl⟩
      | succ k => exact .inr (.inr ⟨k, below', found, q, by rw [Nat.add_right_comm, Nat.add_assoc], hq⟩)

theorem head_of_mem_gather {i : Nat} {blocks : List (List (List Nat))} {p : List Nat} (h : p ∈ gather i blocks) :
    ∃ k q, p = k :: q ∧ i ≤ k := by
  obtain ⟨k, _, _, q, rfl, _⟩ := mem_gather.mp h
  exact ⟨i + k, q, rfl, Nat.le_add_right i k⟩

/-- What relates the positions of one child and what relates the children relates all of them. -/
theorem pairwise_gather {R : List Nat → List Nat → Prop} {i : Nat} {blocks : List (List (List Nat))}
    (inside : ∀ below ∈ blocks, ∀ k, (below.map (k :: ·) ++ [[k]]).Pairwise R)
    (between : ∀ k l p q, k < l → R (k :: p) (l :: q)) : (gather i blocks).Pairwise R := by
  induction blocks generalizing i with
  | nil => exact List.Pairwise.nil
  | cons below blocks ih =>
    have split : gather i (below :: blocks) = (below.map (i :: ·) ++ [[i]]) ++ gather (i + 1) blocks := by
      rw [gather, List.append_assoc, List.singleton_append]
    rw [split, List.pairwise_append]
    refine ⟨inside below List.mem_cons_self i, ih fun b hb => inside b (List.mem_cons_of_mem _ hb), ?_⟩
    intro p hp q hq
    obtain ⟨l, q, rfl, low⟩ := head_of_mem_gather hq
    have first : ∃ p', p = i :: p' := by
      rcases List.mem_append.mp hp with hp | hp
      · obtain ⟨p', _, rfl⟩ := List.mem_map.mp hp
        exact ⟨p', rfl⟩
      · exact ⟨[], List.mem_singleton.mp hp⟩
    obtain ⟨p', rfl⟩ := first
    exact between i l p' q (by omega)

/-- Children that are exhausted one after the other, each before itself, exhaust their parent. -/
theorem exhausts_gather {blocks : List (List (List Nat))} (length : blocks.length = (children a).length)
    (each : ∀ (k : Nat) below c, blocks[k]? = some below → (children a)[k]? = some c → Exhausts children c below) :
    Exhausts children a (gather 0 blocks) := by
  have child : ∀ {k : Nat} {below}, blocks[k]? = some below → ∃ c, (children a)[k]? = some c := by
    intro k below found
    have inside := (List.getElem?_eq_some_iff.mp found).1
    exact ⟨_, List.getElem?_eq_getElem (length ▸ inside)⟩
  have known : ∀ below ∈ blocks, ∃ c, Exhausts children c below := by
    intro below hb
    obtain ⟨k, found⟩ := List.mem_iff_getElem?.mp hb
    obtain ⟨c, hc⟩ := child found
    exact ⟨c, each k below c found hc⟩
  refine ⟨?_, ?_, ?_⟩
  · apply pairwise_gather
    · intro below hb k
      obtain ⟨c, exhausts⟩ := known below hb
      rw [← List.Nodup, List.nodup_append]
      refine ⟨exhausts.distinct.map fun p q same => (List.cons.inj same).2, List.nodup_singleton _, ?_⟩
      intro p hp q hq same
      obtain ⟨p, member, rfl⟩ := List.mem_map.mp hp
      obtain rfl := List.mem_singleton.mp hq
      obtain ⟨-, rfl⟩ := List.cons.inj same
      exact ((exhausts.complete []).mp member).1 rfl
    · intro k l p q less same
      have := (List.cons.inj same).1
      omega
  · intro p
    rw [mem_gather]
    constructor
    · intro h
      obtain ⟨k, below, found, q, rfl, hq⟩ := h
      obtain ⟨c, hc⟩ := child found
      refine ⟨by simp, ?_⟩
      rw [Nat.zero_add, subtree, hc, Option.bind_some]
      rcases hq with rfl | hq
      · rfl
      · exact (((each k below c found hc).complete q).mp hq).2
    · intro h
      obtain ⟨nonempty, there⟩ := h
      cases p with
      | nil => exact absurd rfl nonempty
      | cons k q =>
        rw [subtree] at there
        cases hc : (children a)[k]? with
        | none => simp [hc] at there
        | some c =>
          rw [hc, Option.bind_some] at there
          have inside := (List.getElem?_eq_some_iff.mp hc).1
          have found : blocks[k]? = some blocks[k] := List.getElem?_eq_getElem (length ▸ inside)
          refine ⟨k, _, found, q, by rw [Nat.zero_add], ?_⟩
          by_cases empty : q = []
          · exact .inl empty
          · exact .inr (((each k _ c found hc).complete q).mpr ⟨empty, there⟩)
  · apply pairwise_gather
    · intro below hb k
      obtain ⟨c, exhausts⟩ := known below hb
      rw [List.pairwise_append]
      refine ⟨List.pairwise_map.mpr (exhausts.upwards.imp fun h below => h ((List.cons_prefix_cons.mp below).2)),
        List.pairwise_singleton _ _, ?_⟩
      intro p hp q hq same
      obtain ⟨p, member, rfl⟩ := List.mem_map.mp hp
      obtain rfl := List.mem_singleton.mp hq
      have short := List.prefix_nil.mp (List.cons_prefix_cons.mp same).2
      exact ((exhausts.complete p).mp member).1 short
    · intro k l p q less same
      have := (List.cons_prefix_cons.mp same).1
      omega

end Tree
