import Mathlib.Data.Fintype.Card

/-! # Singly linked queues

A queue whose nodes hold the link to the next one.  A node is put in at the end by a walk along the
links, and taken out at the front.
-/

namespace Xv6Simplesh.Library

variable {Node : Type*} {link link' : Node → Option Node} {head : Option Node} {node : Node} {nodes : List Node}

/-- The links lead from `head` through the nodes, and no further. -/
def Chain (link : Node → Option Node) : Option Node → List Node → Prop
  | head, [] => head = none
  | head, node :: nodes => head = some node ∧ Chain link (link node) nodes

theorem Chain.congr (chain : Chain link head nodes) (same : ∀ node ∈ nodes, link' node = link node) :
    Chain link' head nodes := by
  induction nodes generalizing head with
  | nil => exact chain
  | cons node nodes ih =>
    refine ⟨chain.1, ?_⟩
    rw [same node (by simp)]
    exact ih chain.2 fun other mem => same other (by simp [mem])

/-- The node at the end of the links from `node` on, if the walk is over within `fuel` steps. -/
def lastNode (link : Node → Option Node) : Nat → Node → Option Node
  | 0, _ => none
  | fuel + 1, node =>
    match link node with
    | none => some node
    | some next => lastNode link fuel next

theorem Chain.lastNode {fuel : Nat} (chain : Chain link (some node) nodes) (enough : nodes.length ≤ fuel) :
    lastNode link fuel node = nodes.getLast? := by
  induction nodes generalizing node fuel with
  | nil => cases chain
  | cons first nodes ih =>
    obtain ⟨fuel, rfl⟩ : ∃ left, fuel = left + 1 := ⟨fuel - 1, by simp at enough; omega⟩
    cases chain.1
    cases nodes with
    | nil =>
      have ends : link first = none := chain.2
      simp [Library.lastNode, ends]
    | cons snd nodes =>
      have goes : link first = some snd := chain.2.1
      have rest := ih (goes ▸ chain.2) (by simpa using enough)
      simpa [Library.lastNode, goes] using rest

theorem Chain.snoc [DecidableEq Node] {last : Node} (chain : Chain link head nodes) (distinct : nodes.Nodup)
    (fresh : node ∉ nodes) (ends : link node = none) (isLast : nodes.getLast? = some last) :
    Chain (Function.update link last (some node)) head (nodes ++ [node]) := by
  induction nodes generalizing head with
  | nil => cases isLast
  | cons first nodes ih =>
    simp only [List.nodup_cons, List.mem_cons, not_or] at distinct fresh
    refine ⟨chain.1, ?_⟩
    cases nodes with
    | nil =>
      cases isLast
      simp [Chain, ends, fresh.1]
    | cons snd nodes =>
      have later : (snd :: nodes).getLast? = some last := by simpa using isLast
      have apart : first ≠ last := by
        rintro rfl
        exact distinct.1 (List.mem_of_getLast? later)
      rw [Function.update_of_ne apart]
      exact ih chain.2 distinct.2 fresh.2 later

end Xv6Simplesh.Library
