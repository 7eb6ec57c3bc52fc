import Mathlib.Data.List.Nodup

/-! # Doubly linked rings

Nodes that are linked in both directions, in a ring through a head that is not an element.
`Segment first nodes last` says that the links lead from `first` through the nodes to `last`
and back.  A ring is a segment from the head to itself; a node can be taken out of it, and
put back behind the head.
-/

namespace Xv6Simplesh.Library

open Function

structure Links (Node : Type*) where
  next : Node → Node
  prev : Node → Node

namespace Links

variable {Node : Type*}

/-- The links from `first` through `nodes` to `last`, in both directions. -/
def Segment (links : Links Node) : Node → List Node → Node → Prop
  | first, [], last => links.next first = last ∧ links.prev last = first
  | first, node :: nodes, last => links.next first = node ∧ links.prev node = first ∧ Segment links node nodes last

variable {links links' : Links Node} {first node last : Node} {nodes before after : List Node}

theorem segment_append : links.Segment first (before ++ node :: after) last ↔
      links.Segment first before node ∧ links.Segment node after last := by
  induction before generalizing first with
  | nil => simp only [List.nil_append, Segment, and_assoc]
  | cons other before ih =>
    simp only [List.cons_append, Segment, ih, and_assoc]

section

variable (segment : links.Segment first nodes last)

include segment

theorem Segment.next_mem : links.next first ∈ nodes ++ [last] := by
  cases nodes with
  | nil => simp [segment.1]
  | cons node nodes => simp [segment.1]

theorem Segment.prev_mem : links.prev last ∈ first :: nodes := by
  induction nodes generalizing first with
  | nil => simp [segment.2]
  | cons node nodes ih => exact .tail _ (ih segment.2.2)

/-- A segment rests on the links that lead out of its nodes, and on no others. -/
theorem Segment.congr (next : ∀ node ∈ first :: nodes, links'.next node = links.next node)
    (prev : ∀ node ∈ nodes ++ [last], links'.prev node = links.prev node) : links'.Segment first nodes last := by
  induction nodes generalizing first with
  | nil =>
    refine ⟨?_, ?_⟩
    · rw [next first (by simp), segment.1]
    · rw [prev last (by simp), segment.2]
  | cons node nodes ih =>
    refine ⟨?_, ?_, ih segment.2.2 ?_ ?_⟩
    · rw [next first (by simp), segment.1]
    · rw [prev node (by simp), segment.2.1]
    · exact fun other mem => next other (.tail _ mem)
    · exact fun other mem => prev other (.tail _ mem)

end

/-! ## Traversal -/

/-- The nodes that following `link` from `node` leads to before it comes to `head`, if it does
within `fuel` steps. -/
def traverse [DecidableEq Node] (head : Node) (link : Node → Node) : Nat → Node → Option (List Node)
  | 0, node => if node = head then some [] else none
  | fuel + 1, node =>
    if node = head then some [] else (traverse head link fuel (link node)).map fun nodes => node :: nodes

theorem Segment.traverse_next [DecidableEq Node] {fuel : Nat} (segment : links.Segment first nodes last)
    (outside : last ∉ nodes) (enough : nodes.length ≤ fuel) :
    traverse last links.next fuel (links.next first) = some nodes := by
  induction nodes generalizing first fuel with
  | nil =>
    rw [segment.1]
    cases fuel <;> simp [traverse]
  | cons node nodes ih =>
    obtain ⟨fuel, rfl⟩ : ∃ left, fuel = left + 1 := ⟨fuel - 1, by simp only [List.length_cons] at enough; omega⟩
    rw [List.mem_cons, not_or] at outside
    rw [segment.1, traverse, if_neg (Ne.symm outside.1),
      ih segment.2.2 outside.2 (Nat.le_of_succ_le_succ enough)]
    rfl

theorem Segment.reverse (segment : links.Segment first nodes last) :
    (⟨links.prev, links.next⟩ : Links Node).Segment last nodes.reverse first := by
  induction nodes generalizing first with
  | nil => exact ⟨segment.2, segment.1⟩
  | cons node nodes ih =>
    rw [List.reverse_cons, segment_append]
    exact ⟨ih segment.2.2, segment.2.1, segment.1⟩

theorem Segment.traverse_prev [DecidableEq Node] {fuel : Nat} (segment : links.Segment first nodes last)
    (outside : first ∉ nodes) (enough : nodes.length ≤ fuel) :
    traverse first links.prev fuel (links.prev last) = some nodes.reverse :=
  segment.reverse.traverse_next (by rwa [List.mem_reverse]) (by rwa [List.length_reverse])

/-! ## Moving a node -/

section Move

variable [DecidableEq Node]

/-- `node->next->prev = node->prev; node->prev->next = node->next`. -/
def unlink (links : Links Node) (node : Node) : Links Node :=
  let links : Links Node := ⟨links.next, update links.prev (links.next node) (links.prev node)⟩
  ⟨update links.next (links.prev node) (links.next node), links.prev⟩

/-- `node->next = head->next; node->prev = head; head->next->prev = node; head->next = node`. -/
def push (links : Links Node) (head node : Node) : Links Node :=
  let links : Links Node := ⟨update links.next node (links.next head), links.prev⟩
  let links : Links Node := ⟨links.next, update links.prev node head⟩
  let links : Links Node := ⟨links.next, update links.prev (links.next head) node⟩
  ⟨update links.next head node, links.prev⟩

/-- Two segments that meet in the node are one when it is taken out. -/
theorem Segment.unlink (left : links.Segment first before node) (right : links.Segment node after last)
    (distinct : (first :: (before ++ node :: after)).Nodup) (outside : last ∉ before ++ node :: after) :
    (links.unlink node).Segment first (before ++ after) last := by
  have ahead : links.next node ∈ after ++ [last] := right.next_mem
  have alone : links.next node ≠ node := by
    intro same
    rw [same, List.mem_append, List.mem_singleton] at ahead
    rcases ahead with inside | rfl
    · simp [List.nodup_cons, List.nodup_append, inside] at distinct
    · simp at outside
  have behind : (links.unlink node).prev = update links.prev (links.next node) (links.prev node) := rfl
  have forward : (links.unlink node).next = update links.next (links.prev node) (links.next node) := by
    simp only [Links.unlink, update_of_ne (Ne.symm alone)]
  induction before generalizing first with
  | nil =>
    rw [List.nil_append] at distinct outside ⊢
    cases after with
    | nil =>
      refine ⟨?_, ?_⟩
      · rw [forward, left.2, update_self, right.1]
      · rw [behind, right.1, update_self, left.2]
    | cons snd after =>
      have rest := right.2.2
      simp only [List.nodup_cons, List.mem_cons, not_or] at distinct outside
      refine ⟨?_, ?_, rest.congr ?_ ?_⟩
      · rw [forward, left.2, update_self, right.1]
      · rw [behind, right.1, update_self, left.2]
      · -- the only changed link forwards is that of `first`
        intro other mem
        rw [forward, left.2, update_of_ne]
        rintro rfl
        rcases List.mem_cons.mp mem with rfl | inside
        · exact distinct.1.2.1 rfl
        · exact distinct.1.2.2 inside
      · intro other mem
        rw [behind, right.1, update_of_ne]
        rintro rfl
        rcases List.mem_append.mp mem with inside | inside
        · exact distinct.2.2.1 inside
        · exact outside.2.1 (List.mem_singleton.mp inside).symm
  | cons snd before ih =>
    have distinct' := (List.nodup_cons.mp distinct).2
    have outside' : last ∉ before ++ node :: after := fun mem => outside (.tail _ mem)
    refine ⟨?_, ?_, ih left.2.2 distinct' outside'⟩
    · -- the node before the one taken out is not `first`, which comes before it
      have last' := left.2.2.prev_mem
      rw [forward, update_of_ne, left.1]
      rintro rfl
      exact (List.nodup_cons.mp distinct).1 (List.mem_append_left _ last')
    · rw [behind, update_of_ne, left.2.1]
      rintro rfl
      rcases List.mem_append.mp ahead with inside | inside
      · refine (List.nodup_cons.mp distinct').1 (List.mem_append_right _ ?_)
        exact .tail _ inside
      · exact outside (by rw [← List.mem_singleton.mp inside]; exact .head _ ..)

theorem Segment.push (ring : links.Segment first nodes first) (distinct : (first :: nodes).Nodup)
    (fresh : node ∉ first :: nodes) : (links.push first node).Segment first (node :: nodes) first := by
  have ne : node ≠ first := fun same => fresh (by simp [same])
  have absent : node ∉ nodes := fun mem => fresh (.tail _ mem)
  have ahead := ring.next_mem
  have forward : (links.push first node).next =
      update (update links.next node (links.next first)) first node := rfl
  have behind : (links.push first node).prev =
      update (update links.prev node first) (links.next first) node := by
    simp only [Links.push, update_of_ne ne.symm]
  refine ⟨?_, ?_, ?_⟩
  · rw [forward, update_self]
  · rw [behind, update_of_ne, update_self]
    rintro rfl
    rcases List.mem_append.mp ahead with inside | inside
    · exact absent inside
    · exact ne (List.mem_singleton.mp inside)
  · cases nodes with
    | nil =>
      refine ⟨?_, ?_⟩
      · rw [forward, update_of_ne ne, update_self, ring.1]
      · rw [behind, ring.1, update_self]
    | cons snd nodes =>
      simp only [List.nodup_cons, List.mem_cons, not_or] at distinct absent
      refine ⟨?_, ?_, ring.2.2.congr ?_ ?_⟩
      · rw [forward, update_of_ne ne, update_self, ring.1]
      · rw [behind, ring.1, update_self]
      · intro other mem
        have notFirst : other ≠ first := by
          rintro rfl
          rcases List.mem_cons.mp mem with same | inside
          · exact distinct.1.1 same
          · exact distinct.1.2 inside
        have notNode : other ≠ node := by
          rintro rfl
          rcases List.mem_cons.mp mem with same | inside
          · exact absent.1 same
          · exact absent.2 inside
        rw [forward, update_of_ne notFirst, update_of_ne notNode]
      · intro other mem
        have notSecond : other ≠ links.next first := by
          rw [ring.1]
          rintro rfl
          rcases List.mem_append.mp mem with inside | inside
          · exact distinct.2.1 inside
          · exact distinct.1.1 (List.mem_singleton.mp inside).symm
        have notNode : other ≠ node := by
          rintro rfl
          rcases List.mem_append.mp mem with inside | inside
          · exact absent.2 inside
          · exact ne (List.mem_singleton.mp inside)
        rw [behind, update_of_ne notSecond, update_of_ne notNode]

end Move

end Links

end Xv6Simplesh.Library
