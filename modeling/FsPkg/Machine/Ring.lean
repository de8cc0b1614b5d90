import FsPkg.Machine.LinkedList

/-! # Rings in a store

A ring is a doubly linked list that closes on a head: the last node leads to the head, and the head back to the last
node. A node by itself is the head of a ring without others. No link of a ring is null, so a node is put in or taken out
without looking where it is, and taking out the node of a ring by itself changes nothing.
-/

namespace FsPkg.Machine

variable {α : Type*}

/-- The nodes follow the head, and the last of them leads back to it. -/
def Ring (links : Links α) (head : α) (nodes : List α) : Prop :=
  Segment links (head :: nodes).getLast? (head :: nodes) (some head) ∧ (head :: nodes).Nodup

namespace Ring

variable {links links' : Links α} {head m : α} {nodes left right : List α}

theorem congr (ring : Ring links head nodes) (same : ∀ k ∈ head :: nodes, links' k = links k) :
    Ring links' head nodes :=
  ⟨ring.1.congr same, ring.2⟩

theorem link_head (ring : Ring links head nodes) :
    links head = some ⟨nodes.head?.or (some head), (head :: nodes).getLast?⟩ :=
  ring.1.1

theorem single (closed : links m = some ⟨some m, some m⟩) : Ring links m [] :=
  ⟨⟨closed, trivial⟩, List.nodup_singleton m⟩

theorem isSome (ring : Ring links head nodes) {k : α} (member : k ∈ head :: nodes) : ∃ link, links k = some link :=
  ring.1.isSome member

/-- The part of a ring before a node, and the part from it on. -/
theorem split (ring : Ring links head (left ++ m :: right)) :
    Segment links (m :: right).getLast? (head :: left) (some m) ∧
      Segment links (head :: left).getLast? (m :: right) (some head) := by
  have parts := (Segment.append_iff (head :: left) (m :: right)).mp ring.1
  have last : (head :: (left ++ m :: right)).getLast? = (m :: right).getLast? :=
    List.getLast?_append_of_ne_nil (head :: left) (List.cons_ne_nil m right)
  rw [last, List.head?_cons, Option.some_or] at parts
  rwa [List.getLast?_eq_some_getLast (List.cons_ne_nil head left), Option.some_or,
    ← List.getLast?_eq_some_getLast] at parts

theorem link (ring : Ring links head (left ++ m :: right)) :
    links m = some ⟨right.head?.or (some head), (head :: left).getLast?⟩ :=
  ring.split.2.1

variable [DecidableEq α]

/-- The ring without the node: its neighbours are linked to each other. -/
theorem unlink (ring : Ring links head (left ++ m :: right)) :
    Ring ((links.setNext (head :: left).getLast? (right.head?.or (some head))).setPrev (right.head?.or (some head))
      (head :: left).getLast?) head (left ++ right) := by
  obtain ⟨before, after⟩ := ring.split
  have nodup : (head :: left ++ m :: right).Nodup := ring.2
  obtain ⟨distinct, others, apart⟩ := List.nodup_append.mp nodup
  have linked := before.setNext_last distinct (right.head?.or (some head))
  refine ⟨?_, nodup.sublist (List.Sublist.append_left (List.sublist_cons_self m right) (head :: left))⟩
  cases right with
  | nil =>
    rw [List.append_nil]
    exact linked.setPrev_head distinct (head :: left).getLast?
  | cons k right =>
    have last : (head :: (left ++ k :: right)).getLast? = (m :: k :: right).getLast? :=
      List.getLast?_append_of_ne_nil (head :: left) (List.cons_ne_nil k right)
    rw [last]
    apply (Segment.append_iff (head :: left) (k :: right)).mpr
    constructor
    · apply linked.congr
      intro node member
      apply Links.setPrev_of_ne
      rintro ⟨⟩
      exact apart _ member _ (List.mem_cons_of_mem _ List.mem_cons_self) rfl
    · have kept : Segment (links.setNext (head :: left).getLast? (some k)) (some m) (k :: right) (some head) := by
        apply after.2.congr
        intro node member
        apply Links.setNext_of_ne
        intro same
        exact apart node (List.mem_of_getLast? same) node (List.mem_cons_of_mem _ member) rfl
      rw [List.getLast?_eq_some_getLast (List.cons_ne_nil head left)] at kept ⊢
      exact kept.setPrev_head (List.nodup_cons.mp others).2 _

/-- Taking out a node that is by itself. -/
theorem unlink_single (ring : Ring links m []) : (links.setNext (some m) (some m)).setPrev (some m) (some m) = links := by
  funext k
  rcases eq_or_ne k m with rfl | other
  · simp [Links.setNext, Links.setPrev, ring.link_head]
  · have different : some m ≠ some k := fun same => other (Option.some.inj same).symm
    rw [Links.setPrev_of_ne _ different, Links.setNext_of_ne _ different]

/-- The ring with a node at the end, whose links are set before those of its neighbours. -/
theorem pushBack (ring : Ring links head nodes) (fresh : m ∉ head :: nodes) :
    Ring ((Links.setNext (Function.update links m (some ⟨some head, (head :: nodes).getLast?⟩))
      (head :: nodes).getLast? (some m)).setPrev (some head) (some m)) head (nodes ++ [m]) := by
  have linked := ((ring.1.update_of_notMem fresh (some ⟨some head, (head :: nodes).getLast?⟩)).setNext_last ring.2
    (some m)).setPrev_head ring.2 (some m)
  have nodup : ((head :: nodes) ++ [m]).Nodup := List.nodup_append_comm.mp (List.nodup_cons.mpr ⟨fresh, ring.2⟩)
  refine ⟨?_, nodup⟩
  have last : (head :: (nodes ++ [m])).getLast? = some m := List.getLast?_concat (l := head :: nodes)
  rw [last]
  apply (Segment.append_iff (head :: nodes) [m]).mpr
  refine ⟨linked, ?_, trivial⟩
  have first : some head ≠ some m := fun same => fresh (Option.some.inj same ▸ List.mem_cons_self)
  have behind : (head :: nodes).getLast? ≠ some m := fun same => fresh (List.mem_of_getLast? same)
  rw [Links.setPrev_of_ne _ first, Links.setNext_of_ne _ behind, Function.update_self,
    List.getLast?_eq_some_getLast (List.cons_ne_nil head nodes)]
  rfl

end Ring

end FsPkg.Machine
