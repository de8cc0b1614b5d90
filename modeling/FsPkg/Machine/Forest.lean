import Mathlib.Data.List.Basic
import Mathlib.Data.List.Perm.Basic

/-! # Forests of first children and next siblings

A forest as records linked by two pointers hold it: every node points at its first child and at its next sibling. A
cursor is a node as it is reached from the first root: with what its two pointers hold, and with the nodes above it and
what follows each of them. Going to the next node of the pre-order, a cursor visits every node once, and knows the
labels above it.
-/

namespace FsPkg.Machine

variable {α β : Type*}

inductive Forest (α : Type*) where
  | nil
  | node (a : α) (children next : Forest α)
deriving DecidableEq, Repr

namespace Forest

/-- The roots of a forest with what is below each, in order. -/
def roots : Forest α → List (α × Forest α)
  | nil => []
  | node a children next => (a, children) :: next.roots

/-- Every node has a property, with what is below it. -/
def All (holds : α → Forest α → Prop) : Forest α → Prop
  | nil => True
  | node a children next => holds a children ∧ children.All holds ∧ next.All holds

/-- The trees of one forest, then those of another. -/
def append : Forest α → Forest α → Forest α
  | nil, g => g
  | node a children next, g => node a children (next.append g)

/-- A forest with its labels changed. -/
def map (change : α → β) : Forest α → Forest β
  | nil => nil
  | node a children next => node (change a) (children.map change) (next.map change)

/-- The trees in the opposite order, in front of others. -/
def reverseOnto : Forest α → Forest α → Forest α
  | nil, g => g
  | node a children next, g => next.reverseOnto (node a children g)

/-- The opposite order at every level, in front of others. -/
def turnOnto : Forest α → Forest α → Forest α
  | nil, g => g
  | node a children next, g => next.turnOnto (node a (children.turnOnto nil) g)

theorem all_map {holds : α → Forest α → Prop} {holds' : β → Forest β → Prop} {change : α → β}
    (keeps : ∀ a c, holds a c → holds' (change a) (c.map change)) {f : Forest α} (all : f.All holds) :
    (f.map change).All holds' := by
  induction f with
  | nil => trivial
  | node a children next below behind =>
    obtain ⟨own, inside, rest⟩ := all
    exact ⟨keeps a children own, below inside, behind rest⟩

theorem all_reverseOnto {holds : α → Forest α → Prop} {f g : Forest α} (all : f.All holds) (others : g.All holds) :
    (f.reverseOnto g).All holds := by
  induction f generalizing g with
  | nil => exact others
  | node a children next _ behind =>
    obtain ⟨own, inside, rest⟩ := all
    exact behind rest ⟨own, inside, others⟩

theorem all_turnOnto {holds : α → Forest α → Prop} (keeps : ∀ a c, holds a c → holds a (c.turnOnto nil))
    {f g : Forest α} (all : f.All holds) (others : g.All holds) : (f.turnOnto g).All holds := by
  induction f generalizing g with
  | nil => exact others
  | node a children next below behind =>
    obtain ⟨own, inside, rest⟩ := all
    exact behind rest ⟨keeps a children own, below inside trivial, others⟩

theorem mem_roots_turnOnto {f g : Forest α} {r : α × Forest α} (member : r ∈ (f.turnOnto g).roots) :
    (∃ s ∈ f.roots, s.1 = r.1) ∨ r ∈ g.roots := by
  induction f generalizing g with
  | nil => exact .inr member
  | node a children next _ behind =>
    obtain ⟨s, among, same⟩ | later := behind member
    · exact .inl ⟨s, List.mem_cons_of_mem _ among, same⟩
    · obtain rfl | later := List.mem_cons.mp later
      · exact .inl ⟨(a, children), List.mem_cons_self, rfl⟩
      · exact .inr later

theorem mem_roots_map {change : α → β} {f : Forest α} {r : β × Forest β} (member : r ∈ (f.map change).roots) :
    ∃ s ∈ f.roots, change s.1 = r.1 := by
  induction f with
  | nil => cases member
  | node a children next _ behind =>
    obtain rfl | later := List.mem_cons.mp member
    · exact ⟨(a, children), List.mem_cons_self, rfl⟩
    · obtain ⟨s, among, same⟩ := behind later
      exact ⟨s, List.mem_cons_of_mem _ among, same⟩

theorem turnOnto_eq_nil {f g : Forest α} (none : f.turnOnto g = nil) : f = nil ∧ g = nil := by
  induction f generalizing g with
  | nil => exact ⟨rfl, none⟩
  | node a children next _ behind => cases (behind none).2

theorem map_eq_nil {change : α → β} {f : Forest α} (none : f.map change = nil) : f = nil := by
  cases f with
  | nil => rfl
  | node a children next => cases none

@[simp] theorem append_nil (f : Forest α) : f.append nil = f := by
  induction f with
  | nil => rfl
  | node a children next _ behind => rw [append, behind]

theorem append_assoc (f g h : Forest α) : (f.append g).append h = f.append (g.append h) := by
  induction f with
  | nil => rfl
  | node a children next _ behind => rw [append, append, append, behind]

theorem reverseOnto_reverseOnto (f g h : Forest α) : (f.reverseOnto g).reverseOnto h = g.reverseOnto (f.append h) := by
  induction f generalizing g with
  | nil => rfl
  | node a children next _ behind => rw [reverseOnto, behind]; rfl

theorem turnOnto_turnOnto (f g h : Forest α) : (f.turnOnto g).turnOnto h = g.turnOnto (f.append h) := by
  induction f generalizing g h with
  | nil => rfl
  | node a children next below behind =>
    have inside : (children.turnOnto nil).turnOnto nil = children := by rw [below nil nil, append_nil]; rfl
    rw [turnOnto, behind, turnOnto, inside]
    rfl

/-- Turning twice changes nothing. -/
theorem turnOnto_twice (f : Forest α) : (f.turnOnto nil).turnOnto nil = f := by
  rw [turnOnto_turnOnto, append_nil]
  rfl

theorem reverseOnto_twice (f : Forest α) : (f.reverseOnto nil).reverseOnto nil = f := by
  rw [reverseOnto_reverseOnto, append_nil]
  rfl

theorem map_map (change : α → α) (f : Forest α) (undone : ∀ a, change (change a) = a) :
    (f.map change).map change = f := by
  induction f with
  | nil => rfl
  | node a children next below behind => simp only [map, undone, below, behind]

theorem map_reverseOnto (change : α → β) (f g : Forest α) :
    (f.reverseOnto g).map change = (f.map change).reverseOnto (g.map change) := by
  induction f generalizing g with
  | nil => rfl
  | node a children next _ behind => rw [reverseOnto, behind]; rfl

theorem map_turnOnto (change : α → β) (f g : Forest α) :
    (f.turnOnto g).map change = (f.map change).turnOnto (g.map change) := by
  induction f generalizing g with
  | nil => rfl
  | node a children next below behind => rw [turnOnto, behind, map, below]; rfl

/-- The nodes in pre-order, each with the labels above it, innermost first. -/
def visits (above : List α) : Forest α → List (α × List α)
  | nil => []
  | node a children next => (a, above) :: (children.visits (a :: above) ++ next.visits above)

/-- The labels in pre-order. -/
def preorder : Forest α → List α
  | nil => []
  | node a children next => a :: (children.preorder ++ next.preorder)

theorem map_fst_visits (f : Forest α) (above : List α) : (f.visits above).map Prod.fst = f.preorder := by
  induction f generalizing above with
  | nil => rfl
  | node a children next below behind => simp [visits, preorder, below, behind]

/-- What was above before stays above. -/
theorem visits_eq_map (f : Forest α) (above : List α) :
    f.visits above = (f.visits []).map fun v => (v.1, v.2 ++ above) := by
  induction f generalizing above with
  | nil => rfl
  | node a children next below behind =>
    simp only [visits, List.map_cons, List.map_append, List.nil_append, List.cons.injEq, true_and]
    rw [below (a :: above), below [a], behind above, List.map_map]
    simp [Function.comp_def]

theorem visits_map (change : α → β) (f : Forest α) (above : List α) :
    (f.map change).visits (above.map change) = (f.visits above).map fun v => (change v.1, v.2.map change) := by
  induction f generalizing above with
  | nil => rfl
  | node a children next below behind =>
    rw [map, visits, visits, List.map_cons, List.map_append, ← behind, ← below]
    rfl

theorem visits_reverseOnto_perm (f g : Forest α) :
    ((f.reverseOnto g).visits []).Perm (f.visits [] ++ g.visits []) := by
  induction f generalizing g with
  | nil => exact List.Perm.refl _
  | node a children next _ behind =>
    apply (behind _).trans
    simp only [visits, List.cons_append, List.append_assoc]
    apply List.perm_middle.trans
    apply List.Perm.cons
    rw [← List.append_assoc, ← List.append_assoc]
    exact List.Perm.append_right _ List.perm_append_comm

/-- All labels above a node that is visited are labels of the forest, or were above it before. -/
theorem mem_above_of_mem_visits {f : Forest α} {above ups : List α} {a b : α} (visited : (a, ups) ∈ f.visits above)
    (member : b ∈ ups) : b ∈ f.preorder ∨ b ∈ above := by
  induction f generalizing above with
  | nil => simp [visits] at visited
  | node x children next below behind =>
    simp only [visits, List.mem_cons, List.mem_append, Prod.mk.injEq] at visited
    simp only [preorder, List.mem_cons, List.mem_append]
    obtain ⟨-, rfl⟩ | inside | after := visited
    · exact .inr member
    · obtain h | h := below inside
      · exact .inl (.inr (.inl h))
      · obtain rfl | h := List.mem_cons.mp h
        · exact .inl (.inl rfl)
        · exact .inr h
    · obtain h | h := behind after
      · exact .inl (.inr (.inr h))
      · exact .inr h

/-- What follows a node, given what follows each node above it. -/
def pending (next : Forest α) : List (α × Forest α) → List (α × List α)
  | [] => next.visits []
  | (a, after) :: ups => next.visits (a :: ups.map Prod.fst) ++ after.pending ups

end Forest

/-- A node of a forest, as a program that follows pointers holds it. -/
structure Cursor (α : Type*) where
  label : α
  children : Forest α
  next : Forest α
  /-- The nodes above, innermost first, each with its next sibling. -/
  ups : List (α × Forest α)

namespace Cursor

open Forest

/-- The labels above a cursor. -/
def above (c : Cursor α) : List α := c.ups.map Prod.fst

/-- What a cursor visits after its node. -/
def remaining (c : Cursor α) : List (α × List α) :=
  c.children.visits (c.label :: c.above) ++ c.next.pending c.ups

/-- The first root. -/
def first : Forest α → Option (Cursor α)
  | nil => none
  | node a children next => some ⟨a, children, next, []⟩

/-- The first child. -/
def down (c : Cursor α) : Option (Cursor α) :=
  match c.children with
  | nil => none
  | node a children next => some ⟨a, children, next, (c.label, c.next) :: c.ups⟩

/-- The next sibling. -/
def right (c : Cursor α) : Option (Cursor α) :=
  match c.next with
  | nil => none
  | node a children next => some ⟨a, children, next, c.ups⟩

theorem first_visits {f : Forest α} :
    (first f = none ∧ f.visits [] = []) ∨
      ∃ c, first f = some c ∧ c.above = [] ∧ f.visits [] = (c.label, []) :: c.remaining := by
  cases f with
  | nil => exact .inl ⟨rfl, rfl⟩
  | node a children next => exact .inr ⟨_, rfl, rfl, rfl⟩

theorem down_eq_none {c : Cursor α} : c.down = none ↔ c.children = nil := by
  cases children : c.children <;> simp [down, children]

theorem right_eq_none {c : Cursor α} : c.right = none ↔ c.next = nil := by
  cases next : c.next <;> simp [right, next]

theorem remaining_down {c d : Cursor α} (moved : c.down = some d) :
    d.above = c.label :: c.above ∧ c.remaining = (d.label, d.above) :: d.remaining := by
  unfold down at moved
  cases children : c.children with
  | nil => simp [children] at moved
  | node a below next =>
    rw [children] at moved
    obtain rfl := Option.some.inj moved
    refine ⟨rfl, ?_⟩
    simp [remaining, children, visits, pending, above]

theorem ups_right {c d : Cursor α} (moved : c.right = some d) : d.ups = c.ups := by
  unfold right at moved
  cases next : c.next with
  | nil => simp [next] at moved
  | node a below after =>
    rw [next] at moved
    obtain rfl := Option.some.inj moved
    rfl

theorem ups_down {c d : Cursor α} (moved : c.down = some d) : d.ups = (c.label, c.next) :: c.ups := by
  unfold down at moved
  cases children : c.children with
  | nil => simp [children] at moved
  | node a below after =>
    rw [children] at moved
    obtain rfl := Option.some.inj moved
    rfl

theorem pending_right {c d : Cursor α} (moved : c.right = some d) :
    c.next.pending c.ups = (d.label, d.above) :: d.remaining ∧ d.above = c.above := by
  unfold right at moved
  cases next : c.next with
  | nil => simp [next] at moved
  | node a below after =>
    rw [next] at moved
    obtain rfl := Option.some.inj moved
    cases ups : c.ups with
    | nil => simp [remaining, visits, pending, above, ups]
    | cons parent rest => simp [remaining, visits, pending, Cursor.above, ups]

end Cursor

end FsPkg.Machine
