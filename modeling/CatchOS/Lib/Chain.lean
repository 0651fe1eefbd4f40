import Mathlib.Data.List.Nodup

/-!
# Linked chains

A chain is a list of nodes in which each node leads to the next one and the last
one leads to `null`. The successor is any function, so a chain can be a linked list
in a memory: after a write the successor is another function, and what the chain
keeps is what the two functions have in common on its nodes.

* `Chain.unique` and `Chain.nodup`: the nodes are told by the first one, and no node
  comes twice, since a chain that came back to a node would never end.
* `Chain.congr`, `Chain.concat` and `Chain.insertAfter`: writes outside the chain, a new last
  node, and a new node in the middle.
* `follow` walks along the successors until a test holds. On a chain it ends, at the
  first node that passes the test (`Chain.follow_found`) or at `null`.
-/

set_option autoImplicit false

namespace CatchOS.Lib

universe u

variable {Node : Type u}

/-- The nodes from `start` on, along `next` up to `null`. -/
inductive Chain (next : Node → Node) (null : Node) : Node → List Node → Prop where
  | nil : Chain next null null []
  | cons {node : Node} {nodes : List Node} : node ≠ null → Chain next null (next node) nodes →
      Chain next null node (node :: nodes)

namespace Chain

variable {next next' : Node → Node} {null start node last new : Node} {nodes others : List Node}

theorem nil_iff (chain : Chain next null start nodes) : nodes = [] ↔ start = null := by
  cases chain with
  | nil => exact ⟨fun _ => rfl, fun _ => rfl⟩
  | cons different _ => exact ⟨nofun, fun equal => absurd equal different⟩

/-- What a chain with a first node is. -/
theorem uncons (chain : Chain next null start (node :: nodes)) :
    start = node ∧ node ≠ null ∧ Chain next null (next node) nodes := by
  cases chain with
  | cons different rest => exact ⟨rfl, different, rest⟩

theorem unique (chain : Chain next null start nodes) (other : Chain next null start others) :
    nodes = others := by
  induction chain generalizing others with
  | nil =>
      cases other with
      | nil => rfl
      | cons different _ => exact absurd rfl different
  | cons different _ ih =>
      cases other with
      | nil => exact absurd rfl different
      | cons _ rest => rw [ih rest]

theorem ne_null (chain : Chain next null start nodes) : ∀ node ∈ nodes, node ≠ null := by
  induction chain with
  | nil => exact nofun
  | cons different _ ih => exact List.forall_mem_cons.mpr ⟨different, ih⟩

/-- From each of its nodes a chain goes on to the end. -/
theorem suffix (chain : Chain next null start nodes) (member : node ∈ nodes) :
    ∃ rest, Chain next null node (node :: rest) ∧ rest.length < nodes.length := by
  induction chain with
  | nil => cases member
  | @cons first rest different tail ih =>
      rcases List.mem_cons.mp member with rfl | later
      · exact ⟨rest, .cons different tail, Nat.lt_succ_self _⟩
      · obtain ⟨after, onward, shorter⟩ := ih later
        exact ⟨after, onward, Nat.lt_succ_of_lt shorter⟩

/-- A node that came twice would be followed by two chains of different lengths. -/
theorem nodup (chain : Chain next null start nodes) : nodes.Nodup := by
  induction chain with
  | nil => exact List.nodup_nil
  | @cons first rest different tail ih =>
      refine List.nodup_cons.mpr ⟨?_, ih⟩
      intro again
      obtain ⟨after, onward, shorter⟩ := tail.suffix again
      have same := (cons different tail).unique onward
      rw [(List.cons.inj same).2] at shorter
      exact Nat.lt_irrefl _ shorter

/-- No node leads back to the first one. -/
theorem next_ne_start (chain : Chain next null start nodes) (member : node ∈ nodes) :
    next node ≠ start := by
  intro back
  obtain ⟨rest, onward, shorter⟩ := chain.suffix member
  have again := onward.uncons.2.2
  rw [back] at again
  rw [chain.unique again] at shorter
  exact Nat.lt_irrefl _ shorter

/-- Only the successors of its own nodes matter to a chain. -/
theorem congr (chain : Chain next null start nodes)
    (same : ∀ node ∈ nodes, next' node = next node) :
    Chain next' null start nodes := by
  induction chain with
  | nil => exact .nil
  | @cons first rest different _ ih =>
      obtain ⟨here, later⟩ := List.forall_mem_cons.mp same
      refine .cons different ?_
      rw [here]
      exact ih later

/-- The last node leads to `null`. -/
theorem next_getLast (chain : Chain next null start nodes) (ends : nodes.getLast? = some last) :
    next last = null := by
  induction chain with
  | nil => cases ends
  | @cons first rest _ tail ih =>
      cases rest with
      | nil =>
          simp only [List.getLast?_singleton, Option.some.injEq] at ends
          rw [← ends]
          exact tail.nil_iff.mp rfl
      | cons second others =>
          rw [List.getLast?_cons_cons] at ends
          exact ih ends

/-- **A new node in the middle.** A node leads to the new one, and that to where the node led;
the other nodes lead where they did. -/
theorem insertAfter {front back : List Node}
    (chain : Chain next null start (front ++ node :: back))
    (same : ∀ other ∈ front ++ node :: back, other ≠ node → next' other = next other)
    (linked : next' node = new) (different : new ≠ null) (onward : next' new = next node) :
    Chain next' null start (front ++ node :: new :: back) := by
  induction front generalizing start with
  | nil =>
      obtain ⟨rfl, nonnull, rest⟩ := chain.uncons
      have once := (List.nodup_cons.mp chain.nodup).1
      refine .cons nonnull ?_
      rw [linked]
      refine .cons different ?_
      rw [onward]
      exact rest.congr fun other member =>
        same other (List.mem_cons_of_mem _ member) fun equal => once (equal ▸ member)
  | cons first front ih =>
      obtain ⟨rfl, nonnull, rest⟩ := chain.uncons
      obtain ⟨here, later⟩ := List.forall_mem_cons.mp same
      have once := (List.nodup_cons.mp chain.nodup).1
      have before : start ≠ node := by
        intro equal
        exact once (equal ▸ List.mem_append_right _ List.mem_cons_self)
      refine .cons nonnull ?_
      rw [here before]
      exact ih rest later

/-- **A new last node.** The old last node leads to the new one, and the new one to
`null`; the other nodes lead where they did. -/
theorem concat (chain : Chain next null start nodes) (ends : nodes.getLast? = some last)
    (same : ∀ node ∈ nodes, node ≠ last → next' node = next node) (linked : next' last = new)
    (different : new ≠ null) (stop : next' new = null) :
    Chain next' null start (nodes ++ [new]) := by
  have onward : next' new = next last := stop.trans (chain.next_getLast ends).symm
  obtain ⟨front, rfl⟩ := List.getLast?_eq_some_iff.mp ends
  rw [List.append_assoc, List.singleton_append]
  exact chain.insertAfter same linked different onward

end Chain

/-! ## Walking along the successors -/

/-- Follows `next` until a node passes the test; `turns` bounds the steps. -/
def follow (next : Node → Node) (test : Node → Bool) : ℕ → Node → Option Node
  | 0, _ => none
  | turns + 1, node => if test node then some node else follow next test turns (next node)

/-- On a chain the walk ends at the first node that passes the test. -/
theorem Chain.follow_found {next : Node → Node} {null start found : Node} {nodes : List Node}
    {test : Node → Bool} {turns : ℕ} (chain : Chain next null start nodes)
    (first : nodes.find? test = some found) (enough : nodes.length ≤ turns) :
    follow next test turns start = some found := by
  induction chain generalizing turns with
  | nil => cases first
  | @cons node rest _ _ ih =>
      cases turns with
      | zero => cases enough
      | succ turns =>
          rw [follow]
          cases passed : test node with
          | true =>
              rw [List.find?_cons_of_pos passed] at first
              rw [if_pos rfl, first]
          | false =>
              rw [List.find?_cons_of_neg (by rw [passed]; exact Bool.false_ne_true)] at first
              rw [if_neg Bool.false_ne_true]
              exact ih first (Nat.le_of_succ_le_succ enough)

/-- Without such a node it ends at `null`, when `null` passes the test. -/
theorem Chain.follow_null {next : Node → Node} {null start : Node} {nodes : List Node}
    {test : Node → Bool} {turns : ℕ} (chain : Chain next null start nodes)
    (missing : nodes.find? test = none) (stops : test null = true) (enough : nodes.length < turns) :
    follow next test turns start = some null := by
  induction chain generalizing turns with
  | nil =>
      obtain ⟨left, rfl⟩ := Nat.exists_eq_add_of_lt enough
      rw [follow, if_pos stops]
  | @cons node rest _ _ ih =>
      cases turns with
      | zero => cases enough
      | succ turns =>
          rw [List.find?_eq_none, List.forall_mem_cons] at missing
          rw [follow, if_neg missing.1]
          exact ih (List.find?_eq_none.mpr missing.2) (Nat.lt_of_succ_lt_succ enough)

end CatchOS.Lib
