import Mathlib.Data.List.Induction
import Mathlib.Data.List.Nodup
import Mathlib.Logic.Function.Basic
import Mathlib.Tactic.TypeStar

/-! # Doubly linked lists in a store

A store gives the two links of each node, or nothing where there is no node. A list is held by its two ends and a chain
of nodes whose links agree with their order. Taking a node out relinks its neighbours; putting one in relinks the nodes
on both sides of it. Both change links of the list's own nodes only, so other lists of the same store are kept. The
links lead through the nodes in both directions.
-/

namespace FsPkg.Machine

variable {α : Type*} [DecidableEq α]

/-! ## Stores -/

section Store

variable {β : Type*} {store : α → Option β} {k other : α} {v w : β}

/-- What is stored after an assignment. -/
theorem update_some_eq_some :
    Function.update store k (some v) other = some w ↔ (other = k ∧ w = v) ∨ (other ≠ k ∧ store other = some w) := by
  rcases eq_or_ne other k with rfl | different
  · simp [eq_comm]
  · simp [different]

/-- What is stored after a removal. -/
theorem update_none_eq_some :
    Function.update store k none other = some w ↔ other ≠ k ∧ store other = some w := by
  rcases eq_or_ne other k with rfl | different
  · simp
  · simp [different]

end Store

/-! ## Links -/

/-- The links of a node, `none` at an end of the list. -/
structure Link (α : Type*) where
  next : Option α
  prev : Option α

/-- The first and the last node of a list. -/
structure Ends (α : Type*) where
  head : Option α
  tail : Option α

/-- The nodes of a store. -/
abbrev Links (α : Type*) := α → Option (Link α)

namespace Links

/-- Set `next` of a node, if a node is given. -/
def setNext (links : Links α) (node next : Option α) : Links α :=
  node.elim links fun k => Function.update links k ((links k).map fun link => { link with next })

/-- Set `prev` of a node, if a node is given. -/
def setPrev (links : Links α) (node prev : Option α) : Links α :=
  node.elim links fun k => Function.update links k ((links k).map fun link => { link with prev })

variable {links : Links α} {node : Option α} {k : α}

theorem setNext_of_ne (next : Option α) (other : node ≠ some k) : links.setNext node next k = links k := by
  cases node with
  | none => rfl
  | some n =>
    apply Function.update_of_ne
    rintro rfl
    exact other rfl

theorem setPrev_of_ne (prev : Option α) (other : node ≠ some k) : links.setPrev node prev k = links k := by
  cases node with
  | none => rfl
  | some n =>
    apply Function.update_of_ne
    rintro rfl
    exact other rfl

/-- The two links of a node are set independently. -/
theorem setNext_setPrev_comm (links : Links α) (node next other prev : Option α) :
    (links.setPrev other prev).setNext node next = (links.setNext node next).setPrev other prev := by
  cases node with
  | none => rfl
  | some n =>
    cases other with
    | none => rfl
    | some o =>
      funext k
      by_cases hereN : k = n <;> by_cases hereO : k = o <;> by_cases same : o = n <;>
        simp_all [setNext, setPrev, Function.update_apply, Option.map_map, Function.comp_def]

omit [DecidableEq α] in
/-- The nodes that a link leads through from a node on, if they are at most so many. -/
def follow (links : Links α) (direction : Link α → Option α) : ℕ → Option α → Option (List α)
  | _, none => some []
  | 0, some _ => none
  | fuel + 1, some m => do
    let link ← links m
    let rest ← follow links direction fuel (direction link)
    some (m :: rest)

end Links

/-! ## Chains of nodes -/

omit [DecidableEq α] in
/-- The nodes follow each other from `before` to `after`. -/
def Segment (links : Links α) : Option α → List α → Option α → Prop
  | _, [], _ => True
  | before, m :: rest, after => links m = some ⟨rest.head?.or after, before⟩ ∧ Segment links (some m) rest after

namespace Segment

variable {links links' : Links α} {before after : Option α} {nodes : List α}

omit [DecidableEq α] in
theorem congr (same : ∀ k ∈ nodes, links' k = links k) (segment : Segment links before nodes after) :
    Segment links' before nodes after := by
  induction nodes generalizing before with
  | nil => trivial
  | cons m rest ih =>
    obtain ⟨first, others⟩ := List.forall_mem_cons.mp same
    exact ⟨first.trans segment.1, ih others segment.2⟩

/-- A node outside of the chain may be set. -/
theorem update_of_notMem {m : α} (fresh : m ∉ nodes) (segment : Segment links before nodes after)
    (link : Option (Link α)) : Segment (Function.update links m link) before nodes after := by
  apply segment.congr
  intro k member
  apply Function.update_of_ne
  rintro rfl
  exact fresh member

omit [DecidableEq α] in
theorem append_iff (left right : List α) : Segment links before (left ++ right) after ↔
    Segment links before left (right.head?.or after) ∧ Segment links (left.getLast?.or before) right after := by
  induction left generalizing before with
  | nil => simp [Segment]
  | cons m rest ih =>
    have last : (m :: rest).getLast?.or before = rest.getLast?.or (some m) := by
      rw [List.getLast?_cons]
      cases rest.getLast? <;> rfl
    rw [last, List.cons_append, Segment, Segment, ih, List.head?_append, Option.or_assoc, and_assoc]

omit [DecidableEq α] in
/-- Every node of a chain is there. -/
theorem isSome (segment : Segment links before nodes after) {k : α} (member : k ∈ nodes) :
    ∃ link, links k = some link := by
  induction nodes generalizing before with
  | nil => contradiction
  | cons m rest ih =>
    rcases List.mem_cons.mp member with rfl | later
    · exact ⟨_, segment.1⟩
    · exact ih segment.2 later

/-- The chain may start after another node. -/
theorem setPrev_head (segment : Segment links before nodes after) (nodup : nodes.Nodup) (before' : Option α) :
    Segment (links.setPrev nodes.head? before') before' nodes after := by
  cases nodes with
  | nil => trivial
  | cons m rest =>
    obtain ⟨fresh, -⟩ := List.nodup_cons.mp nodup
    refine ⟨?_, segment.2.congr ?_⟩
    · simp [Links.setPrev, segment.1]
    · intro k member
      apply Links.setPrev_of_ne
      rintro ⟨⟩
      exact fresh member

/-- The chain may end before another node. -/
theorem setNext_last (segment : Segment links before nodes after) (nodup : nodes.Nodup) (after' : Option α) :
    Segment (links.setNext nodes.getLast? after') before nodes after' := by
  induction nodes generalizing before with
  | nil => trivial
  | cons m rest ih =>
    obtain ⟨fresh, distinct⟩ := List.nodup_cons.mp nodup
    cases rest with
    | nil => exact ⟨by simp [Links.setNext, segment.1], trivial⟩
    | cons k others =>
      have last : (m :: k :: others).getLast? = (k :: others).getLast? := List.getLast?_cons_cons
      rw [last]
      refine ⟨?_, ih segment.2 distinct⟩
      rw [Links.setNext_of_ne, segment.1]
      · rfl
      · intro same
        exact fresh (List.mem_of_getLast? same)

omit [DecidableEq α] in
theorem follow_next (segment : Segment links before nodes none) {fuel : ℕ} (enough : nodes.length ≤ fuel) :
    links.follow Link.next fuel nodes.head? = some nodes := by
  induction nodes generalizing before fuel with
  | nil => cases fuel <;> rfl
  | cons m rest ih =>
    obtain ⟨fuel, rfl⟩ := Nat.exists_eq_succ_of_ne_zero (by rw [List.length_cons] at enough; omega : fuel ≠ 0)
    rw [List.length_cons] at enough
    have others := ih segment.2 (by omega : rest.length ≤ fuel)
    simp only [List.head?_cons, Links.follow, segment.1, Option.or_none, others, bind, Option.bind_some]

omit [DecidableEq α] in
theorem follow_prev (segment : Segment links none nodes after) {fuel : ℕ} (enough : nodes.length ≤ fuel) :
    links.follow Link.prev fuel nodes.getLast? = some nodes.reverse := by
  induction nodes using List.reverseRecOn generalizing after fuel with
  | nil => cases fuel <;> rfl
  | append_singleton left m ih =>
    obtain ⟨first, last⟩ := (append_iff _ _).mp segment
    rw [List.length_append, List.length_singleton] at enough
    obtain ⟨fuel, rfl⟩ := Nat.exists_eq_succ_of_ne_zero (by omega : fuel ≠ 0)
    have others := ih first (by omega : left.length ≤ fuel)
    simp only [List.getLast?_concat, Links.follow, last.1, Option.or_none, others, bind, Option.bind_some,
      List.reverse_append, List.reverse_singleton, List.singleton_append]

end Segment

/-! ## Lists -/

omit [DecidableEq α] in
/-- A list of the store: its ends, and its nodes in order. -/
structure Linked (links : Links α) (ends : Ends α) (nodes : List α) : Prop where
  head : ends.head = nodes.head?
  tail : ends.tail = nodes.getLast?
  segment : Segment links none nodes none
  nodup : nodes.Nodup

namespace Linked

variable {links links' : Links α} {ends : Ends α} {nodes left right : List α} {m : α}

omit [DecidableEq α] in
theorem empty (links : Links α) : Linked links ⟨none, none⟩ [] := ⟨rfl, rfl, trivial, List.nodup_nil⟩

omit [DecidableEq α] in
theorem congr (same : ∀ k ∈ nodes, links' k = links k) (linked : Linked links ends nodes) : Linked links' ends nodes :=
  { linked with segment := linked.segment.congr same }

omit [DecidableEq α] in
/-- The links of a node are its neighbours. -/
theorem link (linked : Linked links ends (left ++ m :: right)) : links m = some ⟨right.head?, left.getLast?⟩ := by
  obtain ⟨-, segment⟩ := (Segment.append_iff _ _).mp linked.segment
  rw [segment.1, Option.or_none, Option.or_none]

/-- The store without the node: its neighbours are linked to each other. -/
theorem unlink (linked : Linked links ends (left ++ m :: right)) :
    Linked ((links.setPrev right.head? left.getLast?).setNext left.getLast? right.head?)
      ⟨(left ++ right).head?, (left ++ right).getLast?⟩ (left ++ right) where
  head := rfl
  tail := rfl
  nodup := linked.nodup.sublist (List.Sublist.append_left (List.sublist_cons_self ..) _)
  segment := by
    obtain ⟨distinct, others, apart⟩ := List.nodup_append.mp linked.nodup
    obtain ⟨first, second⟩ := (Segment.append_iff _ _).mp linked.segment
    rw [List.head?_cons] at first
    apply (Segment.append_iff _ _).mpr
    rw [Option.or_none, Option.or_none]
    constructor
    · have kept : Segment (links.setPrev right.head? left.getLast?) none left (some m) := by
        apply first.congr
        intro k member
        apply Links.setPrev_of_ne
        intro same
        exact apart k member k (List.mem_cons_of_mem _ (List.mem_of_head? same)) rfl
      exact kept.setNext_last distinct _
    · refine (second.2.setPrev_head (List.nodup_cons.mp others).2 left.getLast?).congr ?_
      intro k member
      apply Links.setNext_of_ne
      intro same
      exact apart k (List.mem_of_getLast? same) k (List.mem_cons_of_mem _ member) rfl

/-- The store with a node in front, whose links are set before those of the old first node. -/
theorem push (linked : Linked links ends nodes) (fresh : m ∉ nodes) :
    Linked (Links.setPrev (Function.update links m (some ⟨nodes.head?, none⟩)) nodes.head? (some m))
      ⟨some m, (m :: nodes).getLast?⟩ (m :: nodes) where
  head := rfl
  tail := rfl
  nodup := List.nodup_cons.mpr ⟨fresh, linked.nodup⟩
  segment := by
    constructor
    · rw [Links.setPrev_of_ne, Function.update_self, Option.or_none]
      intro same
      exact fresh (List.mem_of_head? same)
    · exact (linked.segment.update_of_notMem fresh _).setPrev_head linked.nodup _

/-- The store with a node between two others, or in front, whose links are set before those of its neighbours. -/
theorem insertBefore {b : α} (linked : Linked links ends (left ++ b :: right)) (fresh : m ∉ left ++ b :: right) :
    Linked (Links.setPrev (Links.setNext (Function.update links m (some ⟨some b, left.getLast?⟩))
        left.getLast? (some m)) (some b) (some m))
      ⟨(left ++ m :: b :: right).head?, (left ++ m :: b :: right).getLast?⟩ (left ++ m :: b :: right) where
  head := rfl
  tail := rfl
  nodup := List.nodup_middle.mpr (List.nodup_cons.mpr ⟨fresh, linked.nodup⟩)
  segment := by
    obtain ⟨distinct, others, apart⟩ := List.nodup_append.mp linked.nodup
    obtain ⟨first, second⟩ := (Segment.append_iff _ _).mp linked.segment
    have notLeft : m ∉ left := fun member => fresh (List.mem_append_left _ member)
    have notRight : m ∉ b :: right := fun member => fresh (List.mem_append_right _ member)
    apply (Segment.append_iff _ _).mpr
    constructor
    · have kept := (first.update_of_notMem notLeft (some ⟨some b, left.getLast?⟩)).setNext_last distinct (some m)
      apply kept.congr
      intro k member
      apply Links.setPrev_of_ne
      intro same
      exact apart k member b List.mem_cons_self (Option.some.inj same).symm
    · constructor
      · rw [Links.setPrev_of_ne, Links.setNext_of_ne, Function.update_self, Option.or_none, Option.or_none]
        · rfl
        · exact fun same => notLeft (List.mem_of_getLast? same)
        · rintro ⟨⟩
          exact notRight List.mem_cons_self
      · have kept : Segment (Links.setNext (Function.update links m (some ⟨some b, left.getLast?⟩)) left.getLast?
            (some m)) (left.getLast?.or none) (b :: right) none := by
          apply (second.update_of_notMem notRight _).congr
          intro k member
          apply Links.setNext_of_ne
          intro same
          exact apart k (List.mem_of_getLast? same) k member rfl
        exact kept.setPrev_head others (some m)

/-- The store with a node at the end, whose links are set before those of the old last node. -/
theorem pushBack (linked : Linked links ends nodes) (fresh : m ∉ nodes) :
    Linked (Links.setNext (Function.update links m (some ⟨none, nodes.getLast?⟩)) nodes.getLast? (some m))
      ⟨(nodes ++ [m]).head?, some m⟩ (nodes ++ [m]) where
  head := rfl
  tail := by rw [List.getLast?_concat]
  nodup := List.nodup_append_comm.mp (List.nodup_cons.mpr ⟨fresh, linked.nodup⟩)
  segment := by
    apply (Segment.append_iff _ _).mpr
    constructor
    · exact (linked.segment.update_of_notMem fresh _).setNext_last linked.nodup _
    · refine ⟨?_, trivial⟩
      rw [Links.setNext_of_ne _ fun same => fresh (List.mem_of_getLast? same), Function.update_self, Option.or_none,
        Option.or_none]
      rfl

end Linked

end FsPkg.Machine
