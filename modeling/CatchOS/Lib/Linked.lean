import Mathlib.Data.List.Basic
import Mathlib.Data.Nat.Notation

/-!
# Doubly linked lists

The nodes of a list, of which each one knows the address of the one before it and of the one
behind it. What a node holds is left open: `holds before node after` says that the node is
stored with these two neighbours. A part of a list is `Linked` between the address before it
and the address behind it, so a list is cut in two at any place (`linked_append`).

Putting a node in or taking one out is then two changes at the cut, one for the last node of
the front part and one for the first node of the back part (`Linked.splice`); all other nodes
are stored as before.
-/

set_option autoImplicit false

namespace CatchOS.Lib

universe u v

variable {Node : Type u} {Address : Type v}

section Linked

variable (address : Node → Address)

/-- The address of the first node, or the one behind the list. -/
def firstOf : List Node → Address → Address
  | [], after => after
  | node :: _, _ => address node

/-- The address of the last node, or the one before the list. -/
def lastOf : Address → List Node → Address
  | before, [] => before
  | _, node :: rest => lastOf (address node) rest

variable (holds : Address → Node → Address → Prop)

/-- Each node is stored with the addresses of its two neighbours. -/
def Linked : Address → List Node → Address → Prop
  | _, [], _ => True
  | before, node :: rest, after =>
      holds before node (firstOf address rest after) ∧ Linked (address node) rest after

end Linked

variable {address : Node → Address} {holds holds' : Address → Node → Address → Prop}
  {before after after' : Address} {node : Node} {nodes front back : List Node}

@[simp] theorem firstOf_nil (after : Address) : firstOf address [] after = after := rfl

@[simp] theorem firstOf_cons (node : Node) (rest : List Node) (after : Address) :
    firstOf address (node :: rest) after = address node := rfl

@[simp] theorem lastOf_nil (before : Address) : lastOf address before [] = before := rfl

@[simp] theorem lastOf_cons (before : Address) (node : Node) (rest : List Node) :
    lastOf address before (node :: rest) = lastOf address (address node) rest := rfl

theorem firstOf_append (front back : List Node) (after : Address) :
    firstOf address (front ++ back) after = firstOf address front (firstOf address back after) := by
  cases front with
  | nil => rfl
  | cons node rest => rfl

theorem lastOf_append (before : Address) (front back : List Node) :
    lastOf address before (front ++ back) = lastOf address (lastOf address before front) back := by
  induction front generalizing before with
  | nil => rfl
  | cons node rest ih => exact ih (address node)

theorem lastOf_concat (before : Address) (front : List Node) (node : Node) :
    lastOf address before (front ++ [node]) = address node := by
  rw [lastOf_append, lastOf_cons, lastOf_nil]

theorem lastOf_of_getLast? (before : Address) (ends : node ∈ nodes.getLast?) :
    lastOf address before nodes = address node := by
  obtain ⟨front, rfl⟩ := List.getLast?_eq_some_iff.mp ends
  exact lastOf_concat before front node

/-- An address before the end of a list is that of its last node. -/
theorem exists_of_lastOf_ne (different : lastOf address before nodes ≠ before) :
    ∃ node ∈ nodes.getLast?, lastOf address before nodes = address node := by
  rcases List.eq_nil_or_concat' nodes with rfl | ⟨front, node, rfl⟩
  · exact absurd rfl different
  · exact ⟨node, List.getLast?_concat, lastOf_concat _ _ _⟩

theorem exists_of_firstOf_ne (different : firstOf address nodes after ≠ after) :
    ∃ node ∈ nodes.head?, firstOf address nodes after = address node := by
  cases nodes with
  | nil => exact absurd rfl different
  | cons node rest => exact ⟨node, rfl, rfl⟩

theorem firstOf_of_head? (after : Address) (starts : node ∈ nodes.head?) :
    firstOf address nodes after = address node := by
  obtain ⟨back, rfl⟩ := List.head?_eq_some_iff.mp starts
  rfl

/-! ## Lists and their parts -/

/-- A list is cut in two behind any of its nodes. -/
theorem linked_append :
    Linked address holds before (front ++ back) after ↔
      Linked address holds before front (firstOf address back after) ∧
        Linked address holds (lastOf address before front) back after := by
  induction front generalizing before with
  | nil => simp [Linked]
  | cons node rest ih =>
      rw [List.cons_append, Linked, ih, Linked, lastOf_cons, firstOf_append, and_assoc]

/-- Nodes that are stored as before are linked as before. -/
theorem Linked.mono (linked : Linked address holds before nodes after)
    (kept : ∀ node ∈ nodes, ∀ before after, holds before node after → holds' before node after) :
    Linked address holds' before nodes after := by
  induction nodes generalizing before with
  | nil => trivial
  | cons node rest ih =>
      obtain ⟨here, later⟩ := List.forall_mem_cons.mp kept
      exact ⟨here _ _ linked.1, ih linked.2 later⟩

/-! ## Changes at one end of a part -/

/-- The last node gets another neighbour. -/
theorem Linked.relinkLast (linked : Linked address holds before front after)
    (kept : ∀ node ∈ front.dropLast, ∀ before after, holds before node after →
      holds' before node after)
    (last : ∀ node ∈ front.getLast?, ∀ before, holds before node after →
      holds' before node after') :
    Linked address holds' before front after' := by
  rcases List.eq_nil_or_concat' front with rfl | ⟨rest, node, rfl⟩
  · trivial
  · rw [linked_append] at linked ⊢
    rw [List.dropLast_concat] at kept
    rw [List.getLast?_concat] at last
    exact ⟨linked.1.mono kept, last node rfl _ linked.2.1, trivial⟩

/-- The first node gets another neighbour. -/
theorem Linked.relinkFirst {before' : Address} (linked : Linked address holds before back after)
    (kept : ∀ node ∈ back.tail, ∀ before after, holds before node after → holds' before node after)
    (first : ∀ node ∈ back.head?, ∀ after, holds before node after → holds' before' node after) :
    Linked address holds' before' back after := by
  cases back with
  | nil => trivial
  | cons node rest => exact ⟨first node rfl _ linked.1, linked.2.mono kept⟩

/-! ## Changes in the middle -/

/-- All nodes but the two next to the cut are stored as before. -/
def KeptApart (holds holds' : Address → Node → Address → Prop) (front back : List Node) : Prop :=
  ∀ node, node ∈ front.dropLast ∨ node ∈ back.tail → ∀ before after,
    holds before node after → holds' before node after

/-- A node away from the cut is none of the two next to it, when no node comes twice. -/
theorem not_next_to_cut (nodup : (front ++ back).Nodup)
    (member : node ∈ front.dropLast ∨ node ∈ back.tail) :
    node ∉ front.getLast? ∧ node ∉ back.head? := by
  obtain ⟨inFront, inBack, disjoint⟩ := List.nodup_append.mp nodup
  rcases member with before | behind
  · refine ⟨fun last => ?_, fun first => ?_⟩
    · obtain ⟨rest, rfl⟩ := List.getLast?_eq_some_iff.mp last
      rw [List.dropLast_concat] at before
      exact (List.nodup_append.mp inFront).2.2 node before node (List.mem_singleton_self _) rfl
    · exact disjoint node (List.dropLast_subset _ before) node (List.mem_of_mem_head? first) rfl
  · refine ⟨fun last => ?_, fun first => ?_⟩
    · exact disjoint node (List.mem_of_mem_getLast? last) node (List.mem_of_mem_tail behind) rfl
    · obtain ⟨rest, rfl⟩ := List.head?_eq_some_iff.mp first
      exact (List.nodup_cons.mp inBack).1 behind

/-- **Other nodes between two parts.** Only the two nodes next to the cut see the change. -/
theorem Linked.splice {old new : List Node}
    (linked : Linked address holds before (front ++ old ++ back) after)
    (kept : KeptApart holds holds' front back)
    (stored : Linked address holds' (lastOf address before front) new (firstOf address back after))
    (last : ∀ node ∈ front.getLast?, ∀ before,
      holds before node (firstOf address (old ++ back) after) →
        holds' before node (firstOf address (new ++ back) after))
    (first : ∀ node ∈ back.head?, ∀ after,
      holds (lastOf address (lastOf address before front) old) node after →
        holds' (lastOf address (lastOf address before front) new) node after) :
    Linked address holds' before (front ++ new ++ back) after := by
  rw [List.append_assoc, linked_append, linked_append] at linked ⊢
  obtain ⟨inFront, -, inBack⟩ := linked
  refine ⟨inFront.relinkLast (fun node member => kept node (.inl member)) last, stored, ?_⟩
  exact inBack.relinkFirst (fun node member => kept node (.inr member)) first

end CatchOS.Lib
