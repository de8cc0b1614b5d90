import FsPkg.Machine.LinkedList
import FsPkg.Model.Dlink
import FsPkg.Model.DlinkMemory

/-! # What each list function does to a linked list

The functions of `dlink.c` set one field at a time. Each lemma here follows one of them over a list that is well linked,
and says which list it leaves: with the node in its new place, or without it. The links of nodes outside of the list,
the other lists and the data of other nodes stay as they are.
-/

namespace FsPkg.DlinkMemory

open Machine

/-! ## Fields -/

/-- The links of the nodes. -/
def Memory.links (mem : Memory) : Links Address :=
  fun m => (mem.nodes m).map fun node => ⟨node.next, node.prev⟩

/-- The data pointers of the nodes. -/
def Memory.data (mem : Memory) (m : Address) : Option UInt64 :=
  (mem.nodes m).map DlinkNode.data

def DlinkList.ends (list : DlinkList) : Ends Address := ⟨list.head, list.tail⟩

section Fields

variable {mem mem' : Memory} {m list : Address} {link : Link Address} {l : DlinkList}

/-- A node is its links and its data. -/
theorem Memory.nodes_ext (links : mem'.links m = mem.links m) (data : mem'.data m = mem.data m) :
    mem'.nodes m = mem.nodes m := by
  unfold Memory.links at links
  unfold Memory.data at data
  cases now : mem'.nodes m with
  | none =>
    cases before : mem.nodes m with
    | none => rfl
    | some node => simp [now, before] at links
  | some node' =>
    cases before : mem.nodes m with
    | none => simp [now, before] at links
    | some node =>
      obtain ⟨datum, next, prev⟩ := node
      obtain ⟨datum', next', prev'⟩ := node'
      simp only [now, before, Option.map_some, Option.some.injEq, Link.mk.injEq] at links data
      obtain ⟨rfl, rfl⟩ := links
      rw [data]

theorem Memory.of_links (there : mem.links m = some link) :
    ∃ node, mem.nodes m = some node ∧ node.next = link.next ∧ node.prev = link.prev := by
  obtain ⟨node, found, rfl⟩ := Option.map_eq_some_iff.mp there
  exact ⟨node, found, rfl, rfl⟩

theorem Memory.exists_link (known : (mem.nodes m).isSome) : ∃ link, mem.links m = some link := by
  rwa [← Option.isSome_iff_exists, Memory.links, Option.isSome_map]

/-- An assignment to a field of a node, seen in the links and in the data. -/
theorem Memory.modifyNode_spec (there : mem.links m = some link) (change : DlinkNode → DlinkNode) :
    ∃ node mem', mem.data m = some node.data ∧ link = ⟨node.next, node.prev⟩ ∧
      mem.modifyNode m change = some mem' ∧
      mem'.links = Function.update mem.links m (some ⟨(change node).next, (change node).prev⟩) ∧
      mem'.data = Function.update mem.data m (some (change node).data) ∧ mem'.lists = mem.lists := by
  obtain ⟨node, found, rfl⟩ := Option.map_eq_some_iff.mp there
  refine ⟨node, ⟨Function.update mem.nodes m (some (change node)), mem.lists⟩, ?_, rfl, ?_, ?_, ?_, rfl⟩
  · rw [Memory.data, found]
    rfl
  · rw [Memory.modifyNode, found]
    rfl
  · exact Function.comp_update (Option.map fun node : DlinkNode => Link.mk node.next node.prev) ..
  · exact Function.comp_update (Option.map DlinkNode.data) ..

theorem Memory.setData_spec (there : mem.links m = some link) (data : UInt64) :
    ∃ mem', mem.setData m data = some mem' ∧ mem'.links = mem.links ∧
      mem'.data = Function.update mem.data m (some data) ∧ mem'.lists = mem.lists := by
  obtain ⟨node, mem', -, rfl, set, links, stored, lists⟩ :=
    Memory.modifyNode_spec there fun node => { node with data }
  refine ⟨mem', set, ?_, stored, lists⟩
  rw [links, ← there, Function.update_eq_self]

theorem Memory.setNext_spec (there : mem.links m = some link) (next : Option Address) :
    ∃ mem', mem.setNext m next = some mem' ∧ mem'.links = mem.links.setNext (some m) next ∧ mem'.data = mem.data ∧
      mem'.lists = mem.lists := by
  obtain ⟨node, mem', data, rfl, set, links, stored, lists⟩ :=
    Memory.modifyNode_spec there fun node => { node with next }
  refine ⟨mem', set, ?_, ?_, lists⟩
  · rw [links, Links.setNext, Option.elim_some, there]
    rfl
  · rw [stored, ← data, Function.update_eq_self]

theorem Memory.setPrev_spec (there : mem.links m = some link) (prev : Option Address) :
    ∃ mem', mem.setPrev m prev = some mem' ∧ mem'.links = mem.links.setPrev (some m) prev ∧ mem'.data = mem.data ∧
      mem'.lists = mem.lists := by
  obtain ⟨node, mem', data, rfl, set, links, stored, lists⟩ :=
    Memory.modifyNode_spec there fun node => { node with prev }
  refine ⟨mem', set, ?_, ?_, lists⟩
  · rw [links, Links.setPrev, Option.elim_some, there]
    rfl
  · rw [stored, ← data, Function.update_eq_self]

/-- Both links of a node are set, `next` first. -/
theorem Memory.setNext_setPrev_spec (there : mem.links m = some link) (next prev : Option Address) :
    ∃ mem₁ mem₂, mem.setNext m next = some mem₁ ∧ mem₁.lists = mem.lists ∧ mem₁.setPrev m prev = some mem₂ ∧
      mem₂.links = Function.update mem.links m (some ⟨next, prev⟩) ∧ mem₂.data = mem.data ∧
      mem₂.lists = mem.lists := by
  obtain ⟨mem₁, ran₁, links₁, data₁, lists₁⟩ := Memory.setNext_spec there next
  rw [Links.setNext, Option.elim_some, there, Option.map_some] at links₁
  have there₁ : mem₁.links m = some { link with next } := by rw [links₁, Function.update_self]
  obtain ⟨mem₂, ran₂, links₂, data₂, lists₂⟩ := Memory.setPrev_spec there₁ prev
  refine ⟨mem₁, mem₂, ran₁, lists₁, ran₂, ?_, data₂.trans data₁, lists₂.trans lists₁⟩
  rw [links₂, Links.setPrev, Option.elim_some, there₁, links₁, Function.update_idem]
  rfl

/-- Both links of a node are set, `prev` first. -/
theorem Memory.setPrev_setNext_spec (there : mem.links m = some link) (next prev : Option Address) :
    ∃ mem₁ mem₂, mem.setPrev m prev = some mem₁ ∧ mem₁.lists = mem.lists ∧ mem₁.setNext m next = some mem₂ ∧
      mem₂.links = Function.update mem.links m (some ⟨next, prev⟩) ∧ mem₂.data = mem.data ∧
      mem₂.lists = mem.lists := by
  obtain ⟨mem₁, ran₁, links₁, data₁, lists₁⟩ := Memory.setPrev_spec there prev
  rw [Links.setPrev, Option.elim_some, there, Option.map_some] at links₁
  have there₁ : mem₁.links m = some { link with prev } := by rw [links₁, Function.update_self]
  obtain ⟨mem₂, ran₂, links₂, data₂, lists₂⟩ := Memory.setNext_spec there₁ next
  refine ⟨mem₁, mem₂, ran₁, lists₁, ran₂, ?_, data₂.trans data₁, lists₂.trans lists₁⟩
  rw [links₂, Links.setNext, Option.elim_some, there₁, links₁, Function.update_idem]
  rfl

theorem Memory.modifyList_spec (there : mem.lists list = some l) (change : DlinkList → DlinkList) :
    mem.modifyList list change = some { mem with lists := Function.update mem.lists list (some (change l)) } := by
  rw [Memory.modifyList, there]
  rfl

/-- A second assignment to the same list. -/
theorem Memory.modifyList_update (mem : Memory) (list : Address) (l : DlinkList) (change : DlinkList → DlinkList) :
    Memory.modifyList { mem with lists := Function.update mem.lists list (some l) } list change =
      some { mem with lists := Function.update mem.lists list (some (change l)) } := by
  rw [Memory.modifyList_spec (Function.update_self ..), Function.update_idem]

end Fields

/-! ## Linking and unlinking -/

section Lists

variable {mem : Memory} {m list : Address} {l : DlinkList} {nodes left right : List Address}

/-- The new head is linked in front of the old one. -/
theorem becomeHead_spec (there : mem.lists list = some l) (linked : Linked mem.links l.ends nodes) (m : Address) :
    ∃ mem', becomeHead m list mem = some mem' ∧ mem'.links = mem.links.setPrev nodes.head? (some m) ∧
      mem'.data = mem.data ∧
      mem'.lists = Function.update mem.lists list (some ⟨some m, (m :: nodes).getLast?, l.length⟩) := by
  obtain ⟨head, tail, length⟩ := l
  obtain rfl : head = nodes.head? := linked.head
  obtain rfl : tail = nodes.getLast? := linked.tail
  cases nodes with
  | nil =>
    refine ⟨{ mem with lists := Function.update mem.lists list (some ⟨some m, [m].getLast?, length⟩) }, ?_, rfl, rfl,
      rfl⟩
    simp only [becomeHead, there, bind, Option.bind_some, List.head?_nil, List.getLast?_nil, if_true, Memory.setTail,
      Memory.setHead, Memory.modifyList_spec there, Memory.modifyList_update]
    rfl
  | cons first rest =>
    obtain ⟨link, found⟩ := linked.segment.isSome (List.mem_cons_self ..)
    obtain ⟨mem₁, set, links, data, lists⟩ := Memory.setPrev_spec found (some m)
    rw [← lists] at there ⊢
    refine ⟨{ mem₁ with
      lists := Function.update mem₁.lists list (some ⟨some m, (m :: first :: rest).getLast?, length⟩) }, ?_, links,
      data, rfl⟩
    simp only [becomeHead, ← lists, there, bind, Option.bind_some, List.head?_cons, set, Memory.setHead,
      Memory.modifyList_spec there, List.getLast?_cons_cons]

/-- Unlinking from the successor. -/
theorem unlinkNext_spec (there : mem.lists list = some l) (tail : l.tail = (left ++ m :: right).getLast?)
    (link : mem.links m = some ⟨right.head?, left.getLast?⟩) (known : ∀ k ∈ right, ∃ link, mem.links k = some link) :
    ∃ mem', unlinkNext m list mem = some mem' ∧ mem'.links = mem.links.setPrev right.head? left.getLast? ∧
      mem'.data = mem.data ∧
      mem'.lists = Function.update mem.lists list (some { l with tail := (left ++ right).getLast? }) := by
  obtain ⟨node, found, next, prev⟩ := Memory.of_links link
  simp only at next prev
  cases right with
  | nil =>
    refine ⟨{ mem with lists := Function.update mem.lists list (some { l with tail := (left ++ []).getLast? }) }, ?_,
      rfl, rfl, rfl⟩
    simp only [unlinkNext, found, bind, Option.bind_some, next, prev, List.head?_nil, Memory.setTail,
      Memory.modifyList_spec there, List.append_nil]
  | cons first rest =>
    obtain ⟨other, foundFirst⟩ := known first List.mem_cons_self
    obtain ⟨mem', set, links, data, lists⟩ := Memory.setPrev_spec foundFirst left.getLast?
    refine ⟨mem', ?_, links, data, ?_⟩
    · simp only [unlinkNext, found, bind, Option.bind_some, next, prev, List.head?_cons, set]
    · have same : l.tail = (left ++ first :: rest).getLast? := by
        rw [tail, List.getLast?_append, List.getLast?_append, List.getLast?_cons_cons]
      rw [lists, ← same, ← there, Function.update_eq_self]

/-- Unlinking from the predecessor. -/
theorem unlinkPrev_spec (there : mem.lists list = some l) (head : l.head = (left ++ m :: right).head?)
    (link : mem.links m = some ⟨right.head?, left.getLast?⟩) (known : ∀ k ∈ left, ∃ link, mem.links k = some link) :
    ∃ mem', unlinkPrev m list mem = some mem' ∧ mem'.links = mem.links.setNext left.getLast? right.head? ∧
      mem'.data = mem.data ∧
      mem'.lists = Function.update mem.lists list (some { l with head := (left ++ right).head? }) := by
  obtain ⟨node, found, next, prev⟩ := Memory.of_links link
  simp only at next prev
  cases last : left.getLast? with
  | none =>
    obtain rfl := List.getLast?_eq_none_iff.mp last
    refine ⟨{ mem with lists := Function.update mem.lists list (some { l with head := right.head? }) }, ?_, rfl, rfl,
      rfl⟩
    simp only [unlinkPrev, found, bind, Option.bind_some, next, prev, last, Memory.setHead,
      Memory.modifyList_spec there]
  | some k =>
    obtain ⟨other, foundLast⟩ := known k (List.mem_of_getLast? last)
    obtain ⟨mem', set, links, data, lists⟩ := Memory.setNext_spec foundLast right.head?
    refine ⟨mem', ?_, links, data, ?_⟩
    · simp only [unlinkPrev, found, bind, Option.bind_some, next, prev, last, set]
    · have same : l.head = (left ++ right).head? := by
        rw [head]
        cases left with
        | nil => cases last
        | cons => rfl
      rw [lists, ← same, ← there, Function.update_eq_self]

/-- One list is another one than before. Only links of the nodes listed were set, and no data. -/
structure Relinked (mem mem' : Memory) (list : Address) (l' : DlinkList) (touched nodes' : List Address) : Prop where
  lists : mem'.lists = Function.update mem.lists list (some l')
  linked : Linked mem'.links l'.ends nodes'
  links : ∀ k, k ∉ touched → mem'.links k = mem.links k
  data : mem'.data = mem.data

/-- The length is counted afterwards. -/
theorem Relinked.length {mem mem' : Memory} {list : Address} {l' : DlinkList} {touched nodes' : List Address}
    (relinked : Relinked mem mem' list l' touched nodes') (count : UInt64 → UInt64) :
    ∃ mem'', mem'.modifyList list (fun l => { l with length := count l.length }) = some mem'' ∧
      Relinked mem mem'' list { l' with length := count l'.length } touched nodes' := by
  have there : mem'.lists list = some l' := by rw [relinked.lists, Function.update_self]
  refine ⟨_, Memory.modifyList_spec there _, ?_, relinked.linked, relinked.links, relinked.data⟩
  rw [relinked.lists, Function.update_idem]

/-- The neighbours of a node are linked to each other, in the order of `dlink_find_delete` and `dlink_move`. -/
theorem unlink_spec (there : mem.lists list = some l) (linked : Linked mem.links l.ends (left ++ m :: right)) :
    ∃ mem₁ mem', unlinkNext m list mem = some mem₁ ∧ unlinkPrev m list mem₁ = some mem' ∧
      Relinked mem mem' list ⟨(left ++ right).head?, (left ++ right).getLast?, l.length⟩ (left ++ right)
        (left ++ right) := by
  obtain ⟨-, others, apart⟩ := List.nodup_append.mp linked.nodup
  obtain ⟨fresh, -⟩ := List.nodup_cons.mp others
  have known : ∀ k ∈ left ++ m :: right, ∃ link, mem.links k = some link := fun k => linked.segment.isSome
  obtain ⟨mem₁, ran₁, links₁, data₁, lists₁⟩ := unlinkNext_spec there linked.tail linked.link fun k member =>
    known k (by simp [member])
  have there₁ : mem₁.lists list = some { l with tail := (left ++ right).getLast? } := by
    rw [lists₁, Function.update_self]
  have link₁ : mem₁.links m = some ⟨right.head?, left.getLast?⟩ := by
    rw [links₁, Links.setPrev_of_ne _ fun same => fresh (List.mem_of_head? same)]
    exact linked.link
  obtain ⟨mem', ran, links, data, lists⟩ := unlinkPrev_spec there₁ linked.head link₁ (by
    intro k member
    rw [links₁, Links.setPrev_of_ne]
    · exact known k (by simp [member])
    · intro same
      exact apart k member k (List.mem_cons_of_mem _ (List.mem_of_head? same)) rfl)
  have unlinked := linked.unlink
  rw [← links₁, ← links] at unlinked
  refine ⟨mem₁, mem', ran₁, ran, ?_, unlinked, ?_, data.trans data₁⟩
  · rw [lists, lists₁, Function.update_idem]
  · intro k outside
    simp only [List.mem_append, not_or] at outside
    rw [links, Links.setNext_of_ne _ fun same => outside.1 (List.mem_of_getLast? same), links₁,
      Links.setPrev_of_ne _ fun same => outside.2 (List.mem_of_head? same)]

/-- The same in the order of `dlink_delete`. -/
theorem unlink_delete_spec (there : mem.lists list = some l) (linked : Linked mem.links l.ends (left ++ m :: right)) :
    ∃ mem₁ mem', unlinkPrev m list mem = some mem₁ ∧ unlinkNext m list mem₁ = some mem' ∧
      Relinked mem mem' list ⟨(left ++ right).head?, (left ++ right).getLast?, l.length⟩ (left ++ right)
        (left ++ right) := by
  obtain ⟨-, others, apart⟩ := List.nodup_append.mp linked.nodup
  have known : ∀ k ∈ left ++ m :: right, ∃ link, mem.links k = some link := fun k => linked.segment.isSome
  obtain ⟨mem₁, ran₁, links₁, data₁, lists₁⟩ := unlinkPrev_spec there linked.head linked.link fun k member =>
    known k (by simp [member])
  have there₁ : mem₁.lists list = some { l with head := (left ++ right).head? } := by
    rw [lists₁, Function.update_self]
  have link₁ : mem₁.links m = some ⟨right.head?, left.getLast?⟩ := by
    rw [links₁, Links.setNext_of_ne _ fun same => apart m (List.mem_of_getLast? same) m List.mem_cons_self rfl]
    exact linked.link
  obtain ⟨mem', ran, links, data, lists⟩ := unlinkNext_spec there₁ linked.tail link₁ (by
    intro k member
    rw [links₁, Links.setNext_of_ne]
    · exact known k (by simp [member])
    · intro same
      exact apart k (List.mem_of_getLast? same) k (List.mem_cons_of_mem _ member) rfl)
  have unlinked := linked.unlink
  rw [Links.setNext_setPrev_comm, ← links₁, ← links] at unlinked
  refine ⟨mem₁, mem', ran₁, ran, ?_, unlinked, ?_, data.trans data₁⟩
  · rw [lists, lists₁, Function.update_idem]
  · intro k outside
    simp only [List.mem_append, not_or] at outside
    rw [links, Links.setPrev_of_ne _ fun same => outside.2 (List.mem_of_head? same), links₁,
      Links.setNext_of_ne _ fun same => outside.1 (List.mem_of_getLast? same)]

/-- A node whose links are set goes in front of a list. -/
theorem becomeHead_push {mem₁ : Memory} (there : mem.lists list = some l) (linked : Linked mem.links l.ends nodes)
    (fresh : m ∉ nodes) (links₁ : mem₁.links = Function.update mem.links m (some ⟨nodes.head?, none⟩))
    (data₁ : mem₁.data = mem.data) (lists₁ : mem₁.lists = mem.lists) :
    ∃ mem', becomeHead m list mem₁ = some mem' ∧
      Relinked mem mem' list ⟨some m, (m :: nodes).getLast?, l.length⟩ (m :: nodes) (m :: nodes) := by
  have kept : Linked mem₁.links l.ends nodes := by
    rw [links₁]
    exact { linked with segment := linked.segment.update_of_notMem fresh _ }
  have pushed := linked.push fresh
  rw [← lists₁] at there
  obtain ⟨mem', ran, links, data, lists⟩ := becomeHead_spec there kept m
  rw [← links₁, ← links] at pushed
  refine ⟨mem', ran, by rw [lists, lists₁], pushed, ?_, data.trans data₁⟩
  intro k outside
  simp only [List.mem_cons, not_or] at outside
  rw [links, Links.setPrev_of_ne _ fun same => outside.2 (List.mem_of_head? same), links₁,
    Function.update_of_ne outside.1]

/-! ## The functions -/

variable {mem₀ : Memory} {data : UInt64} {link : Link Address}

/-- `dlink_add`, from the assignment to `m->data` on. -/
theorem dlinkAdd_spec (set : mem.setData m data = some mem₀) (known : mem₀.links m = some link)
    (there : mem₀.lists list = some l) (linked : Linked mem₀.links l.ends nodes) (fresh : m ∉ nodes) :
    ∃ mem', dlinkAdd data m list mem = some mem' ∧
      Relinked mem₀ mem' list ⟨some m, (m :: nodes).getLast?, l.length + 1⟩ (m :: nodes) (m :: nodes) := by
  obtain ⟨mem₁, mem₂, ran₁, -, ran₂, links₂, data₂, lists₂⟩ := Memory.setNext_setPrev_spec known l.head none
  rw [show l.head = nodes.head? from linked.head] at links₂
  obtain ⟨mem₃, ran₃, relinked⟩ := becomeHead_push there linked fresh links₂ data₂ lists₂
  obtain ⟨mem', ran, final⟩ := relinked.length (· + 1)
  refine ⟨mem', ?_, final⟩
  simp only [dlinkAdd, set, there, ran₁, ran₂, ran₃, bind, Option.bind_some]
  exact ran

/-- `dlink_add_tail`. -/
theorem dlinkAddTail_spec (set : mem.setData m data = some mem₀) (known : mem₀.links m = some link)
    (there : mem₀.lists list = some l) (linked : Linked mem₀.links l.ends nodes) (fresh : m ∉ nodes) :
    ∃ mem', dlinkAddTail data m list mem = some mem' ∧
      Relinked mem₀ mem' list ⟨(nodes ++ [m]).head?, some m, l.length + 1⟩ (m :: nodes) (nodes ++ [m]) := by
  obtain ⟨mem₁, mem₂, ran₁, lists₁, ran₂, links₂, data₂, lists₂⟩ := Memory.setNext_setPrev_spec known none l.tail
  rw [show l.tail = nodes.getLast? from linked.tail] at links₂
  have pushed := linked.pushBack fresh
  rw [← links₂] at pushed
  have there₁ : mem₁.lists list = some l := by rw [lists₁, there]
  have there₂ : mem₂.lists list = some l := by rw [lists₂, there]
  have outside {k : Address} (apart : k ∉ m :: nodes) : mem₂.links k = mem₀.links k := by
    rw [links₂, Function.update_of_ne fun same => apart (by rw [same]; exact List.mem_cons_self)]
  obtain ⟨head, tail, length⟩ := l
  obtain rfl : head = nodes.head? := linked.head
  obtain rfl : tail = nodes.getLast? := linked.tail
  cases nodes with
  | nil =>
    refine ⟨{ mem₂ with lists := Function.update mem₂.lists list (some ⟨some m, some m, length + 1⟩) }, ?_,
      by rw [lists₂]; rfl, pushed, fun k apart => outside apart, data₂⟩
    simp only [dlinkAddTail, set, ran₁, there₁, ran₂, bind, Option.bind_some, List.head?_nil, Memory.setHead,
      Memory.modifyList_spec there₂, Memory.setTail, Memory.modifyList_update, Memory.lengthUp]
  | cons first rest =>
    obtain ⟨last, isLast⟩ : ∃ last, (first :: rest).getLast? = some last := by
      rw [List.getLast?_eq_getLast_of_ne_nil (List.cons_ne_nil _ _)]
      exact ⟨_, rfl⟩
    have member : last ∈ first :: rest := List.mem_of_getLast? isLast
    have knownLast : ∃ link, mem₂.links last = some link := by
      rw [links₂, Function.update_of_ne fun same => fresh (by rw [← same]; exact member)]
      exact linked.segment.isSome member
    obtain ⟨linkLast, knownLast⟩ := knownLast
    obtain ⟨mem₃, ran₃, links₃, data₃, lists₃⟩ := Memory.setNext_spec knownLast (some m)
    rw [isLast, ← links₃] at pushed
    simp only [isLast, List.head?_cons] at ran₂ there₁ there₂
    have there₃ : mem₃.lists list = some ⟨some first, some last, length⟩ := by rw [lists₃, there₂]
    refine ⟨{ mem₃ with lists := Function.update mem₃.lists list (some ⟨some first, some m, length + 1⟩) }, ?_,
      by rw [lists₃, lists₂]; rfl, pushed, ?_, data₃.trans data₂⟩
    · simp only [dlinkAddTail, set, ran₁, there₁, ran₂, bind, Option.bind_some, ran₃, Memory.setTail,
        Memory.modifyList_spec there₃, Memory.modifyList_update, Memory.lengthUp]
    · intro k apart
      change mem₃.links k = mem₀.links k
      rw [links₃, Links.setNext_of_ne, outside apart]
      rintro ⟨⟩
      exact apart (List.mem_cons_of_mem _ member)

/-- The four assignments of `dlink_add_before` in the order of the source. -/
theorem insert_links {links : Links Address} {b before : Address} {link : Link Address} (there : links m = some link)
    (notB : m ≠ b) (notBefore : m ≠ before) :
    (((links.setNext (some before) (some m)).setPrev (some m) (some before)).setPrev (some b) (some m)).setNext
        (some m) (some b) =
      Links.setPrev (Links.setNext (Function.update links m (some ⟨some b, some before⟩)) (some before) (some m))
        (some b) (some m) := by
  rw [Links.setNext_setPrev_comm, Links.setNext_setPrev_comm]
  congr 1
  funext k
  rcases eq_or_ne k m with rfl | here
  · simp [Links.setNext, Links.setPrev, there, notBefore]
  · rcases eq_or_ne k before with rfl | other
    · simp [Links.setNext, Links.setPrev, here]
    · simp [Links.setNext, Links.setPrev, here, other]

/-- The same assignments to the memory. `b->prev` is read again after the first of them. -/
theorem insert_spec {b before : Address} {next : Option Address} {linkBefore : Link Address}
    (known : mem.links m = some link) (knownB : mem.links b = some ⟨next, some before⟩)
    (knownBefore : mem.links before = some linkBefore) (notB : m ≠ b) (notBefore : m ≠ before)
    (different : before ≠ b) :
    ∃ mem₁ mem₂ mem₃ mem', mem.setNext before (some m) = some mem₁ ∧ mem₁.links b = some ⟨next, some before⟩ ∧
      mem₁.setPrev m (some before) = some mem₂ ∧ mem₂.setPrev b (some m) = some mem₃ ∧
      mem₃.setNext m (some b) = some mem' ∧
      mem'.links = Links.setPrev (Links.setNext (Function.update mem.links m (some ⟨some b, some before⟩))
        (some before) (some m)) (some b) (some m) ∧ mem'.data = mem.data ∧ mem'.lists = mem.lists := by
  obtain ⟨mem₁, ran₁, links₁, data₁, lists₁⟩ := Memory.setNext_spec knownBefore (some m)
  have knownB₁ : mem₁.links b = some ⟨next, some before⟩ := by
    rw [links₁, Links.setNext_of_ne _ fun same => different (Option.some.inj same), knownB]
  have known₁ : mem₁.links m = some link := by
    rw [links₁, Links.setNext_of_ne _ fun same => notBefore (Option.some.inj same).symm, known]
  obtain ⟨mem₂, ran₂, links₂, data₂, lists₂⟩ := Memory.setPrev_spec known₁ (some before)
  have knownB₂ : mem₂.links b = some ⟨next, some before⟩ := by
    rw [links₂, Links.setPrev_of_ne _ fun same => notB (Option.some.inj same), knownB₁]
  obtain ⟨mem₃, ran₃, links₃, data₃, lists₃⟩ := Memory.setPrev_spec knownB₂ (some m)
  have known₃ : mem₃.links m = some { link with prev := some before } := by
    rw [links₃, Links.setPrev_of_ne _ fun same => notB (Option.some.inj same).symm, links₂, Links.setPrev,
      Option.elim_some, Function.update_self, known₁]
    rfl
  obtain ⟨mem', ran₄, links₄, data₄, lists₄⟩ := Memory.setNext_spec known₃ (some b)
  refine ⟨mem₁, mem₂, mem₃, mem', ran₁, knownB₁, ran₂, ran₃, ran₄, ?_, ?_, ?_⟩
  · rw [links₄, links₃, links₂, links₁, insert_links known notB notBefore]
  · rw [data₄, data₃, data₂, data₁]
  · rw [lists₄, lists₃, lists₂, lists₁]

/-- `dlink_add_before` for a node that is not the head. -/
theorem dlinkAddBefore_after {b before : Address} (set : mem.setData m data = some mem₀)
    (known : mem₀.links m = some link) (same : mem₀.lists = mem.lists) (there : mem₀.lists list = some l)
    (linked : Linked mem₀.links l.ends (left ++ b :: right)) (fresh : m ∉ left ++ b :: right)
    (last : left.getLast? = some before) :
    ∃ mem', dlinkAddBefore b data m list mem = some mem' ∧
      Relinked mem₀ mem' list
        ⟨(left ++ m :: b :: right).head?, (left ++ m :: b :: right).getLast?, l.length + 1⟩
        (m :: (left ++ b :: right)) (left ++ m :: b :: right) := by
  have thereBefore : mem.lists list = some l := by rw [← same, there]
  obtain ⟨-, -, apart⟩ := List.nodup_append.mp linked.nodup
  have member : before ∈ left := List.mem_of_getLast? last
  obtain ⟨first, rest, rfl⟩ := List.exists_cons_of_ne_nil (List.ne_nil_of_mem member)
  have knownB : mem₀.links b = some ⟨right.head?, some before⟩ := by
    rw [← last]
    exact linked.link
  have notB : m ≠ b := by
    rintro rfl
    exact fresh (by simp)
  have notBefore : m ≠ before := by
    rintro rfl
    exact fresh (List.mem_append_left _ member)
  have head : l.head = some first := linked.head
  have tail : l.tail = (first :: rest ++ b :: right).getLast? := linked.tail
  have notFirst : l.head ≠ some b := by
    rw [head]
    exact fun isB => apart first List.mem_cons_self b List.mem_cons_self (Option.some.inj isB)
  obtain ⟨linkBefore, knownBefore⟩ := linked.segment.isSome (List.mem_append_left _ member)
  obtain ⟨mem₁, mem₂, mem₃, mem₄, ran₁, knownB₁, ran₂, ran₃, ran₄, links, data, lists⟩ :=
    insert_spec known knownB knownBefore notB notBefore (apart before member b List.mem_cons_self)
  obtain ⟨node, foundB, -, prevB⟩ := Memory.of_links knownB
  obtain ⟨node₁, foundB₁, -, prevB₁⟩ := Memory.of_links knownB₁
  have inserted := linked.insertBefore fresh
  rw [last, ← links] at inserted
  have relinked : Relinked mem₀ mem₄ list
      ⟨(first :: rest ++ m :: b :: right).head?, (first :: rest ++ m :: b :: right).getLast?, l.length⟩
      (m :: (first :: rest ++ b :: right)) (first :: rest ++ m :: b :: right) := by
    refine ⟨?_, inserted, ?_, data⟩
    · have ends : l = ⟨(first :: rest ++ m :: b :: right).head?, (first :: rest ++ m :: b :: right).getLast?,
          l.length⟩ := by
        rw [List.getLast?_append, List.getLast?_cons_cons, ← List.getLast?_append, ← tail]
        exact congrArg (fun head => DlinkList.mk head l.tail l.length) head
      rw [← ends, ← there, Function.update_eq_self, lists]
    · intro k outside
      obtain ⟨notM, outside⟩ := not_or.mp (mt List.mem_cons.mpr outside)
      obtain ⟨notLeft, outside⟩ := not_or.mp (mt List.mem_append.mpr outside)
      have notK : k ≠ b := fun same => outside (same ▸ List.mem_cons_self)
      rw [links, Links.setPrev_of_ne _ fun same => notK (Option.some.inj same).symm, Links.setNext_of_ne,
        Function.update_of_ne notM]
      rintro ⟨⟩
      exact notLeft member
  obtain ⟨mem', ran, final⟩ := relinked.length (· + 1)
  refine ⟨mem', ?_, final⟩
  simp only [dlinkAddBefore, thereBefore, notFirst, if_false, set, foundB, prevB, ran₁, foundB₁, prevB₁, ran₂, ran₃,
    ran₄, bind, Option.bind_some]
  exact ran

/-- `dlink_add_before`. -/
theorem dlinkAddBefore_spec {b : Address} (set : mem.setData m data = some mem₀) (known : mem₀.links m = some link)
    (same : mem₀.lists = mem.lists) (there : mem₀.lists list = some l)
    (linked : Linked mem₀.links l.ends (left ++ b :: right)) (fresh : m ∉ left ++ b :: right) :
    ∃ mem', dlinkAddBefore b data m list mem = some mem' ∧
      Relinked mem₀ mem' list
        ⟨(left ++ m :: b :: right).head?, (left ++ m :: b :: right).getLast?, l.length + 1⟩
        (m :: (left ++ b :: right)) (left ++ m :: b :: right) := by
  cases last : left.getLast? with
  | none =>
    obtain rfl := List.getLast?_eq_none_iff.mp last
    obtain ⟨mem', ran, relinked⟩ := dlinkAdd_spec set known there linked fresh
    refine ⟨mem', ?_, relinked⟩
    have first : l.head = some b := linked.head
    rw [same] at there
    simp only [dlinkAddBefore, there, first, bind, Option.bind_some, if_true, ran]
  | some before => exact dlinkAddBefore_after set known same there linked fresh last

/-- `dlink_delete`. -/
theorem dlinkDelete_spec (there : mem.lists list = some l) (linked : Linked mem.links l.ends (left ++ m :: right)) :
    ∃ mem', dlinkDelete m list mem = some mem' ∧
      Relinked mem mem' list ⟨(left ++ right).head?, (left ++ right).getLast?, l.length - 1⟩ (left ++ right)
        (left ++ right) := by
  obtain ⟨mem₁, mem₂, ran₁, ran₂, relinked⟩ := unlink_delete_spec there linked
  obtain ⟨mem', ran, final⟩ := relinked.length (· - 1)
  refine ⟨mem', ?_, final⟩
  simp only [dlinkDelete, ran₁, ran₂, bind, Option.bind_some]
  exact ran

/-- The loop over a chain finds the first node with the data. -/
theorem findLoop_spec {datum : Address → UInt64} {before : Option Address}
    (segment : Segment mem.links before nodes none) (stored : ∀ k ∈ nodes, mem.data k = some (datum k)) {fuel : ℕ}
    (enough : nodes.length ≤ fuel) :
    findLoop data mem fuel nodes.head? = some (nodes.find? (datum · = data)) := by
  induction nodes generalizing before fuel with
  | nil => cases fuel <;> rfl
  | cons k rest ih =>
    rw [List.length_cons] at enough
    obtain ⟨fuel, rfl⟩ := Nat.exists_eq_succ_of_ne_zero (by omega : fuel ≠ 0)
    obtain ⟨here, stored⟩ := List.forall_mem_cons.mp stored
    obtain ⟨node, found, next, -⟩ := Memory.of_links segment.1
    have datumK : node.data = datum k := by
      rw [Memory.data, found] at here
      exact Option.some.inj here
    simp only [Option.or_none] at next
    simp only [List.head?_cons, findLoop, found, bind, Option.bind_some, datumK, List.find?_cons]
    by_cases same : datum k = data
    · simp only [same, if_true, decide_true]
    · simp only [same, if_false, decide_false, next]
      exact ih segment.2 stored (by omega)

/-- Clearing the links of a node that is in no list any more. -/
theorem Relinked.clear {mem' : Memory} {l' : DlinkList} {touched : List Address}
    (relinked : Relinked mem mem' list l' touched nodes) (fresh : m ∉ nodes) (known : mem'.links m = some link) :
    ∃ mem₁ mem₂, mem'.setPrev m none = some mem₁ ∧ mem₁.setNext m none = some mem₂ ∧
      Relinked mem mem₂ list l' (m :: touched) nodes := by
  obtain ⟨mem₁, mem₂, ran₁, -, ran₂, links, data, lists⟩ := Memory.setPrev_setNext_spec known none none
  refine ⟨mem₁, mem₂, ran₁, ran₂, by rw [lists, relinked.lists], ?_, ?_, by rw [data, relinked.data]⟩
  · rw [links]
    exact { relinked.linked with segment := relinked.linked.segment.update_of_notMem fresh _ }
  · intro k apart
    simp only [List.mem_cons, not_or] at apart
    rw [links, Function.update_of_ne apart.1, relinked.links k apart.2]

/-- `dlink_find_delete`, when the loop finds a node. -/
theorem dlinkFindDelete_spec (there : mem.lists list = some l) (linked : Linked mem.links l.ends (left ++ m :: right))
    (found : findLoop data mem addresses l.head = some (some m)) :
    ∃ mem', dlinkFindDelete data list mem = some (some m, mem') ∧
      Relinked mem mem' list ⟨(left ++ right).head?, (left ++ right).getLast?, l.length - 1⟩ (m :: (left ++ right))
        (left ++ right) := by
  have gone : m ∉ left ++ right := (List.nodup_middle.mp linked.nodup).notMem
  obtain ⟨mem₁, mem₂, ran₁, ran₂, relinked⟩ := unlink_spec there linked
  have known : mem₂.links m = some ⟨right.head?, left.getLast?⟩ := by
    rw [relinked.links m gone]
    exact linked.link
  obtain ⟨mem₃, mem₄, ran₃, ran₄, cleared⟩ := relinked.clear gone known
  obtain ⟨mem', ran, final⟩ := cleared.length (· - 1)
  refine ⟨mem', ?_, final⟩
  simp only [dlinkFindDelete, there, found, ran₁, ran₂, ran₃, ran₄, bind, Option.bind_some]
  rw [show mem₄.lengthDown list = some mem' from ran]
  rfl

/-- A counter is changed through a pointer. -/
theorem Memory.count_spec (there : (mem.lists list).isSome) (count : UInt64 → UInt64) :
    ∃ mem', mem.modifyList list (fun l => { l with length := count l.length }) = some mem' ∧
      mem'.nodes = mem.nodes ∧
      ∀ k, mem'.lists k = (mem.lists k).map fun l =>
        { l with length := if k = list then count l.length else l.length } := by
  obtain ⟨l, there⟩ := Option.isSome_iff_exists.mp there
  refine ⟨_, Memory.modifyList_spec there _, rfl, fun k => ?_⟩
  rcases eq_or_ne k list with rfl | other
  · simp only [Function.update_self, there, Option.map_some, if_true]
  · simp only [Function.update_of_ne other, other, if_false, Option.map_id']

/-- The two counters of `dlink_move`, which may be the same. -/
theorem lengths_spec {new : Address} (old : (mem.lists list).isSome) (there : (mem.lists new).isSome) :
    ∃ mem₁ mem', mem.lengthDown list = some mem₁ ∧ mem₁.lengthUp new = some mem' ∧ mem'.nodes = mem.nodes ∧
      ∀ k, mem'.lists k = (mem.lists k).map fun l =>
        { l with length := l.length - (if k = list then 1 else 0) + (if k = new then 1 else 0) } := by
  obtain ⟨mem₁, down, nodes₁, lists₁⟩ := Memory.count_spec old (· - 1)
  rw [← Option.isSome_map, ← lists₁] at there
  obtain ⟨mem', up, nodes', lists'⟩ := Memory.count_spec there (· + 1)
  refine ⟨mem₁, mem', down, up, nodes'.trans nodes₁, fun k => ?_⟩
  rw [lists', lists₁, Option.map_map]
  congr 1
  funext l
  simp only [Function.comp_apply]
  split_ifs <;> simp

/-- `dlink_move`, in its three parts: out of one list, in front of the other, and the counters. -/
theorem dlinkMove_spec (new : Address) (there : mem.lists list = some l)
    (linked : Linked mem.links l.ends (left ++ m :: right)) :
    ∃ mem₁, Relinked mem mem₁ list ⟨(left ++ right).head?, (left ++ right).getLast?, l.length⟩ (left ++ right)
        (left ++ right) ∧
      ∀ l₂ nodes, mem₁.lists new = some l₂ → Linked mem₁.links l₂.ends nodes → m ∉ nodes →
        ∃ mem₂ mem', Relinked mem₁ mem₂ new ⟨some m, (m :: nodes).getLast?, l₂.length⟩ (m :: nodes) (m :: nodes) ∧
          dlinkMove (some m) (some list) (some new) mem = some mem' ∧ mem'.nodes = mem₂.nodes ∧
          ∀ k, mem'.lists k = (mem₂.lists k).map fun l =>
            { l with length := l.length - (if k = list then 1 else 0) + (if k = new then 1 else 0) } := by
  have gone : m ∉ left ++ right := (List.nodup_middle.mp linked.nodup).notMem
  obtain ⟨mem₀, mem₁, ran₀, ran₁, relinked⟩ := unlink_spec there linked
  refine ⟨mem₁, relinked, ?_⟩
  intro l₂ nodes there₂ linked₂ fresh
  have known : mem₁.links m = some ⟨right.head?, left.getLast?⟩ := by
    rw [relinked.links m gone]
    exact linked.link
  obtain ⟨mem₂, mem₃, ran₂, lists₂, ran₃, links₃, data₃, lists₃⟩ := Memory.setPrev_setNext_spec known l₂.head none
  rw [show l₂.head = nodes.head? from linked₂.head] at links₃
  obtain ⟨mem₄, ran₄, pushed⟩ := becomeHead_push there₂ linked₂ fresh links₃ data₃ lists₃
  have oldThere : (mem₄.lists list).isSome := by
    rw [pushed.lists]
    by_cases same : list = new
    · rw [same, Function.update_self]
      rfl
    · rw [Function.update_of_ne same, relinked.lists, Function.update_self]
      rfl
  have newThere : (mem₄.lists new).isSome := by
    rw [pushed.lists, Function.update_self]
    rfl
  obtain ⟨mem₅, mem', ran₅, ran, nodes', lists'⟩ := lengths_spec oldThere newThere
  refine ⟨mem₄, mem', pushed, ?_, nodes', lists'⟩
  rw [← lists₂] at there₂
  simp only [dlinkMove, ran₀, ran₁, ran₂, there₂, ran₃, ran₄, ran₅, ran, bind, Option.bind_some]

end Lists

/-! ## The model without pointers -/

section Refinement

variable {mem : Memory} {list m : Address} {d : Dlink.DlinkList Address}

/-- The list has the nodes and the counter of a list without pointers. -/
def Refines (mem : Memory) (list : Address) (d : Dlink.DlinkList Address) : Prop :=
  ∃ l, mem.lists list = some l ∧ Linked mem.links l.ends d.nodes ∧ l.length = d.length

theorem Relinked.refines {mem' : Memory} {l' : DlinkList} {touched nodes' : List Address}
    (relinked : Relinked mem mem' list l' touched nodes') : Refines mem' list ⟨nodes', l'.length⟩ :=
  ⟨l', by rw [relinked.lists, Function.update_self], relinked.linked, rfl⟩

/-- The data of a node is not part of a list. -/
theorem Refines.setData (refines : Refines mem list d) (known : (mem.nodes m).isSome) (data : UInt64) :
    ∃ mem₀ link l, mem.setData m data = some mem₀ ∧ mem₀.links m = some link ∧ mem₀.lists list = some l ∧
      Linked mem₀.links l.ends d.nodes ∧ l.length = d.length := by
  obtain ⟨l, there, linked, same⟩ := refines
  obtain ⟨link, known⟩ := Memory.exists_link known
  obtain ⟨mem₀, set, links, -, lists⟩ := Memory.setData_spec known data
  rw [← links] at known linked
  rw [← lists] at there
  exact ⟨mem₀, link, l, set, known, there, linked, same⟩

theorem dlinkAdd_refines (refines : Refines mem list d) (known : (mem.nodes m).isSome) (fresh : m ∉ d.nodes)
    (data : UInt64) : ∃ mem', dlinkAdd data m list mem = some mem' ∧ Refines mem' list (Dlink.dlinkAdd m d) := by
  obtain ⟨mem₀, link, l, set, known, there, linked, same⟩ := refines.setData known data
  obtain ⟨mem', ran, relinked⟩ := dlinkAdd_spec set known there linked fresh
  refine ⟨mem', ran, ?_⟩
  rw [Dlink.dlinkAdd, ← same]
  exact relinked.refines

theorem dlinkAddTail_refines (refines : Refines mem list d) (known : (mem.nodes m).isSome) (fresh : m ∉ d.nodes)
    (data : UInt64) :
    ∃ mem', dlinkAddTail data m list mem = some mem' ∧ Refines mem' list (Dlink.dlinkAddTail m d) := by
  obtain ⟨mem₀, link, l, set, known, there, linked, same⟩ := refines.setData known data
  obtain ⟨mem', ran, relinked⟩ := dlinkAddTail_spec set known there linked fresh
  refine ⟨mem', ran, ?_⟩
  rw [Dlink.dlinkAddTail, ← same]
  exact relinked.refines

theorem dlinkDelete_refines (refines : Refines mem list d) (member : m ∈ d.nodes) :
    ∃ mem' d', dlinkDelete m list mem = some mem' ∧ Dlink.dlinkDelete m d = some d' ∧ Refines mem' list d' := by
  obtain ⟨l, there, linked, same⟩ := refines
  obtain ⟨left, right, -, nodes, erased⟩ := @List.exists_erase_eq Address instBEqOfDecidableEq _ m d.nodes member
  rw [nodes] at linked
  obtain ⟨mem', ran, relinked⟩ := dlinkDelete_spec there linked
  refine ⟨mem', _, ran, if_pos member, ?_⟩
  rw [erased, ← same]
  exact relinked.refines

/-- For two lists that differ, which have no node in common. -/
theorem dlinkMove_refines {new : Address} {d₂ : Dlink.DlinkList Address} (different : new ≠ list)
    (refines : Refines mem list d) (refines₂ : Refines mem new d₂) (apart : d.nodes.Disjoint d₂.nodes)
    (member : m ∈ d.nodes) :
    ∃ mem' d' d₂', dlinkMove (some m) (some list) (some new) mem = some mem' ∧
      Dlink.dlinkMove m d d₂ = some (d', d₂') ∧ Refines mem' list d' ∧ Refines mem' new d₂' := by
  obtain ⟨l, there, linked, same⟩ := refines
  obtain ⟨l₂, there₂, linked₂, same₂⟩ := refines₂
  obtain ⟨left, right, -, nodes, erased⟩ := @List.exists_erase_eq Address instBEqOfDecidableEq _ m d.nodes member
  rw [nodes] at linked
  have part : ∀ k ∈ left ++ right, k ∈ d.nodes := by
    rw [nodes]
    exact fun k => fun member => ((List.sublist_cons_self m right).append_left left).subset member
  have gone : m ∉ left ++ right := (List.nodup_middle.mp linked.nodup).notMem
  obtain ⟨mem₁, relinked₁, rest⟩ := dlinkMove_spec new there linked
  have there₁ : mem₁.lists new = some l₂ := by rw [relinked₁.lists, Function.update_of_ne different, there₂]
  have kept : Linked mem₁.links l₂.ends d₂.nodes :=
    linked₂.congr fun k inSecond => relinked₁.links k fun inFirst => apart (part k inFirst) inSecond
  obtain ⟨mem₂, mem', relinked₂, ran, sameNodes, lengths⟩ := rest l₂ d₂.nodes there₁ kept (apart member)
  have links : mem'.links = mem₂.links := by
    funext k
    rw [Memory.links, sameNodes]
    rfl
  refine ⟨mem', _, _, ran, if_pos member, ?_, ?_⟩
  · rw [erased, ← same]
    refine ⟨_, by rw [lengths, relinked₂.lists, Function.update_of_ne different.symm, relinked₁.lists,
      Function.update_self, Option.map_some], ?_, by simp [different.symm]⟩
    rw [links]
    apply relinked₁.linked.congr
    intro k inFirst
    apply relinked₂.links
    simp only [List.mem_cons, not_or]
    exact ⟨fun here => gone (here ▸ inFirst), fun inSecond => apart (part k inFirst) inSecond⟩
  · refine ⟨_, by rw [lengths, relinked₂.lists, Function.update_self, Option.map_some], ?_, by simp [different, same₂]⟩
    rw [links]
    exact relinked₂.linked

end Refinement

end FsPkg.DlinkMemory
