import Mathlib.Data.Finmap

/-!
# Singly linked lists

A heap gives the value and the link of the node at an address; the link 0 is the null
pointer. A chain is the list of addresses and values from a pointer on.
-/

namespace OperatingSystem.LinkedList

variable {α : Type*}

/-- The nodes from `p` on. -/
def Chain (node : ℕ → Option (α × ℕ)) : ℕ → List (ℕ × α) → Prop
  | p, [] => p = 0
  | p, (a, v) :: xs => a = p ∧ p ≠ 0 ∧ ∃ next, node p = some (v, next) ∧ Chain node next xs

variable {node node' : ℕ → Option (α × ℕ)} {p a : ℕ} {v : α} {xs ys : List (ℕ × α)}

theorem Chain.ne_zero (h : Chain node p xs) (hne : xs ≠ []) : p ≠ 0 := by
  cases xs with
  | nil => exact absurd rfl hne
  | cons x xs => exact h.2.1

theorem Chain.exists_node (h : Chain node p xs) (hmem : (a, v) ∈ xs) :
    a ≠ 0 ∧ ∃ next, node a = some (v, next) := by
  induction xs generalizing p with
  | nil => exact absurd hmem List.not_mem_nil
  | cons x xs ih =>
      obtain ⟨b, w⟩ := x
      obtain ⟨rfl, hne, next, hnode, hrest⟩ := h
      rcases List.mem_cons.mp hmem with heq | hmem
      · obtain ⟨rfl, rfl⟩ := Prod.ext_iff.mp heq
        exact ⟨hne, next, hnode⟩
      · exact ih hrest hmem

theorem Chain.unique (h : Chain node p xs) (g : Chain node p ys) : xs = ys := by
  induction xs generalizing p ys with
  | nil =>
      cases ys with
      | nil => rfl
      | cons y ys => exact absurd h g.2.1
  | cons x xs ih =>
      obtain ⟨a, v⟩ := x
      obtain ⟨rfl, hne, next, hnode, hrest⟩ := h
      cases ys with
      | nil => exact absurd g hne
      | cons y ys =>
          obtain ⟨b, w⟩ := y
          obtain ⟨rfl, -, next', hnode', hrest'⟩ := g
          obtain ⟨rfl, rfl⟩ := Prod.ext_iff.mp (Option.some.inj (hnode.symm.trans hnode'))
          rw [ih hrest hrest']

theorem Chain.of_append (h : Chain node p (xs ++ ys)) : ∃ q, Chain node q ys := by
  induction xs generalizing p with
  | nil => exact ⟨p, h⟩
  | cons x xs ih =>
      obtain ⟨-, -, next, -, hrest⟩ := h
      exact ih hrest

/-- No address occurs twice, since the chain from it would be its own part. -/
theorem Chain.nodup (h : Chain node p xs) : (xs.map Prod.fst).Nodup := by
  induction xs generalizing p with
  | nil => exact List.nodup_nil
  | cons x xs ih =>
      have hchain := h
      obtain ⟨a, v⟩ := x
      obtain ⟨rfl, -, next, -, hrest⟩ := h
      refine List.nodup_cons.mpr ⟨fun hmem ↦ ?_, ih hrest⟩
      obtain ⟨⟨b, w⟩, hb, rfl⟩ := List.mem_map.mp hmem
      obtain ⟨us, vs, rfl⟩ := List.append_of_mem hb
      obtain ⟨q, hagain⟩ := hrest.of_append
      obtain rfl := hagain.1
      have hlength := congrArg List.length (hchain.unique hagain)
      simp at hlength
      omega

/-- The values may change where the links stay. -/
theorem Chain.map (h : Chain node p xs) (f : ℕ → α → α)
    (hnode : ∀ a v next, (a, v) ∈ xs → node a = some (v, next) → node' a = some (f a v, next)) :
    Chain node' p (xs.map fun x ↦ (x.1, f x.1 x.2)) := by
  induction xs generalizing p with
  | nil => exact h
  | cons x xs ih =>
      obtain ⟨a, v⟩ := x
      obtain ⟨rfl, hne, next, hlink, hrest⟩ := h
      exact ⟨rfl, hne, next, hnode a v next List.mem_cons_self hlink,
        ih hrest fun b w next hmem ↦ hnode b w next (List.mem_cons_of_mem _ hmem)⟩

theorem Chain.congr (h : Chain node p xs) (hnode : ∀ a ∈ xs.map Prod.fst, node' a = node a) :
    Chain node' p xs := by
  have hmap : Chain node' p (xs.map fun x ↦ (x.1, x.2)) :=
    h.map (fun _ v ↦ v) fun a v next hmem hlink ↦
      (hnode a (List.mem_map_of_mem hmem)).trans hlink
  rwa [List.map_id'] at hmap

/-- A node inside a chain, and the chain behind it. -/
theorem Chain.at_append (h : Chain node p (xs ++ (a, v) :: ys)) :
    a ≠ 0 ∧ ∃ next, node a = some (v, next) ∧ Chain node next ys := by
  induction xs generalizing p with
  | nil =>
      obtain ⟨rfl, hne, next, hnode, hrest⟩ := h
      exact ⟨hne, next, hnode, hrest⟩
  | cons x xs ih =>
      obtain ⟨-, -, next, -, hrest⟩ := h
      exact ih hrest

/-- A node is written: the nodes before it stay, and another chain may follow. -/
theorem Chain.relink {zs : List (ℕ × α)} (h : Chain node p (xs ++ (a, v) :: zs))
    (hnode : ∀ b ∈ xs.map Prod.fst, node' b = node b) {w : α} {q : ℕ}
    (hwritten : node' a = some (w, q)) (hq : Chain node' q ys) :
    Chain node' p (xs ++ (a, w) :: ys) := by
  induction xs generalizing p with
  | nil =>
      obtain ⟨rfl, hne, -⟩ := h
      exact ⟨rfl, hne, q, hwritten, hq⟩
  | cons x xs ih =>
      obtain ⟨b, u⟩ := x
      obtain ⟨rfl, hne, next, hlink, hrest⟩ := h
      refine ⟨rfl, hne, next, (hnode b List.mem_cons_self).trans hlink, ih hrest ?_⟩
      exact fun c hc ↦ hnode c (List.mem_cons_of_mem _ hc)

theorem Chain.link (h : Chain node p (xs ++ [(a, v)]))
    (hnode : ∀ b ∈ xs.map Prod.fst, node' b = node b) {q : ℕ} (hlast : node' a = some (v, q))
    (hq : Chain node' q ys) : Chain node' p (xs ++ (a, v) :: ys) :=
  h.relink hnode hlast hq

theorem Chain.length_le (h : Chain node p xs) {s : Finset ℕ} (hs : ∀ a ∈ xs.map Prod.fst, a ∈ s) :
    xs.length ≤ s.card := by
  have hcard := Finset.card_le_card fun a ha ↦ hs a (List.mem_toFinset.mp ha)
  rwa [List.toFinset_card_of_nodup h.nodup, List.length_map] at hcard

end OperatingSystem.LinkedList
