import Mathlib.Data.List.Basic
import Mathlib.Data.UInt

/-! # Doubly linked lists as sequences with a recorded length

`dlink.c` keeps a `head`, a `tail` and a separately updated `length`. Here a list is the sequence
of its nodes together with that recorded counter, which each operation updates exactly as the
source does (`unsigned long`, so it wraps). Nothing below asserts that the counter is the length of
the sequence: that is an invariant of the clients. The pointer surgery of `dlink_delete` and
`dlink_move` is meaningful only for a node that is on the list it is taken from; elsewhere it
corrupts the links, and the operation has no result here.
-/

namespace FsPkg.Dlink

variable {α : Type} [DecidableEq α]

/-- `dlink_list`: the nodes from `head` to `tail`, and the `length` field. -/
structure DlinkList (α : Type) where
  nodes : List α := []
  length : UInt64 := 0
deriving DecidableEq, Repr

omit [DecidableEq α] in
/-- `dlink_add`: link `m` in at the head. -/
def dlinkAdd (m : α) (list : DlinkList α) : DlinkList α :=
  { nodes := m :: list.nodes, length := list.length + 1 }

omit [DecidableEq α] in
/-- `dlink_add_tail`: link `m` in at the tail. -/
def dlinkAddTail (m : α) (list : DlinkList α) : DlinkList α :=
  { nodes := list.nodes ++ [m], length := list.length + 1 }

/-- `dlink_delete`: unlink `m`. -/
def dlinkDelete (m : α) (list : DlinkList α) : Option (DlinkList α) :=
  if m ∈ list.nodes then
    some { nodes := list.nodes.erase m, length := list.length - 1 }
  else none

/-- `dlink_move`: unlink `m` from `oldlist` and link it in at the head of `newlist`. -/
def dlinkMove (m : α) (oldlist newlist : DlinkList α) : Option (DlinkList α × DlinkList α) :=
  if m ∈ oldlist.nodes then
    some ({ nodes := oldlist.nodes.erase m, length := oldlist.length - 1 },
      { nodes := m :: newlist.nodes, length := newlist.length + 1 })
  else none

namespace DlinkList

omit [DecidableEq α]

/-- The recorded counter is the number of nodes. -/
def Counted (list : DlinkList α) : Prop :=
  list.length.toNat = list.nodes.length

theorem counted_empty : ({} : DlinkList α).Counted := rfl

theorem Counted.length_pos_iff {list : DlinkList α} (counted : list.Counted) :
    0 < list.length ↔ list.nodes ≠ [] := by
  rw [UInt64.lt_iff_toNat_lt, counted]
  exact List.length_pos_iff

/-- Linking in one more node keeps the counter right while it stays below its range. -/
theorem Counted.add {list : DlinkList α} (counted : list.Counted) (nodes : List α)
    (length : nodes.length = list.nodes.length + 1) (bound : nodes.length < 2 ^ 64) :
    Counted ⟨nodes, list.length + 1⟩ := by
  have one : (1 : UInt64).toNat = 1 := rfl
  rw [Counted, UInt64.toNat_add, counted, one, ← length]
  exact Nat.mod_eq_of_lt bound

/-- Unlinking a node that is there never takes the counter below zero. -/
theorem Counted.erase [DecidableEq α] {list : DlinkList α} (counted : list.Counted) {m : α}
    (member : m ∈ list.nodes) : Counted ⟨list.nodes.erase m, list.length - 1⟩ := by
  have positive : 1 ≤ list.nodes.length := List.length_pos_of_mem member
  have le : (1 : UInt64) ≤ list.length := by
    rw [UInt64.le_iff_toNat_le, counted]
    exact positive
  rw [Counted, UInt64.toNat_sub_of_le _ _ le, counted, List.length_erase_of_mem member]
  rfl

end DlinkList

omit [DecidableEq α] in
/-- Filling an empty list with `dlink_add` reverses the order of insertion. -/
theorem foldl_dlinkAdd_nodes (items : List α) (list : DlinkList α) :
    (items.foldl (fun list m => dlinkAdd m list) list).nodes = items.reverse ++ list.nodes := by
  induction items generalizing list with
  | nil => rfl
  | cons item rest ih =>
    rw [List.foldl_cons, ih]
    simp [dlinkAdd]

omit [DecidableEq α] in
theorem foldl_dlinkAdd_counted (items : List α) {list : DlinkList α} (counted : list.Counted)
    (bound : items.length + list.nodes.length < 2 ^ 64) :
    (items.foldl (fun list m => dlinkAdd m list) list).Counted := by
  induction items generalizing list with
  | nil => exact counted
  | cons item rest ih =>
    have bounded : rest.length + (list.nodes.length + 1) < 2 ^ 64 := by
      simp only [List.length_cons] at bound
      omega
    refine ih ?_ bounded
    exact counted.add (item :: list.nodes) rfl (by simp only [List.length_cons]; omega)

end FsPkg.Dlink
