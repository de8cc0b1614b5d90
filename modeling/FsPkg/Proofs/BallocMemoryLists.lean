import FsPkg.Machine.LinkedList
import FsPkg.Model.BallocMemory

/-! # The lists of headers

`dlink_add` and `dlink_move` set links one at a time. On a store of headers whose lists are well linked they do what the
list library does, and touch neither the data pointers nor the back pointers to the blocks.
-/

namespace FsPkg.BallocMemory

open Machine

/-! ## Links and payload -/

/-- The links of the headers. -/
def Headers.links (headers : Headers) : Links Address :=
  fun m => (headers m).map fun h => ⟨h.self.next, h.self.prev⟩

/-- What the list functions leave alone: the data pointer and the block of a header. -/
def Headers.payload (headers : Headers) (m : Address) : Option (Option Address × Option Address) :=
  (headers m).map fun h => (h.self.data, h.block)

def DlinkList.ends (list : DlinkList) : Ends Address := ⟨list.head, list.tail⟩

section Fields

variable {headers headers' : Headers} {m : Address}

/-- A header is its links and its payload. -/
theorem Headers.ext_at (links : headers'.links m = headers.links m) (payload : headers'.payload m = headers.payload m) :
    headers' m = headers m := by
  unfold Headers.links at links
  unfold Headers.payload at payload
  cases now : headers' m with
  | none =>
    rw [now] at links
    cases before : headers m with
    | none => rfl
    | some h => simp [before] at links
  | some h' =>
    rw [now] at links payload
    cases before : headers m with
    | none => simp [before] at links
    | some h =>
      obtain ⟨⟨data, next, prev⟩, block⟩ := h
      obtain ⟨⟨data', next', prev'⟩, block'⟩ := h'
      simp only [before, Option.map_some, Option.some.injEq, Link.mk.injEq, Prod.mk.injEq] at links payload
      obtain ⟨rfl, rfl⟩ := links
      obtain ⟨rfl, rfl⟩ := payload
      rfl

theorem Headers.of_links {link : Link Address} (there : headers.links m = some link) :
    ∃ h, headers m = some h ∧ h.self.next = link.next ∧ h.self.prev = link.prev := by
  obtain ⟨h, found, rfl⟩ := Option.map_eq_some_iff.mp there
  exact ⟨h, found, rfl, rfl⟩

/-- An assignment to a field of a header, seen in the links and in the payload. -/
theorem Headers.modify_spec {h : MemBlock} (found : headers m = some h) (change : MemBlock → MemBlock) :
    ∃ headers', headers.modify m change = some headers' ∧
      headers'.links = Function.update headers.links m (some ⟨(change h).self.next, (change h).self.prev⟩) ∧
      headers'.payload = Function.update headers.payload m (some ((change h).self.data, (change h).block)) := by
  refine ⟨Function.update headers m (some (change h)), ?_, ?_, ?_⟩
  · rw [Headers.modify, found]
    rfl
  · exact Function.comp_update (Option.map fun h : MemBlock => Link.mk h.self.next h.self.prev) ..
  · exact Function.comp_update (Option.map fun h : MemBlock => (h.self.data, h.block)) ..

theorem Headers.setNext_spec {link : Link Address} (there : headers.links m = some link) (next : Option Address) :
    ∃ headers', headers.setNext m next = some headers' ∧
      headers'.links = headers.links.setNext (some m) next ∧ headers'.payload = headers.payload := by
  obtain ⟨h, found, rfl⟩ := Option.map_eq_some_iff.mp there
  obtain ⟨headers', set, links, payload⟩ :=
    Headers.modify_spec found fun h => { h with self := { h.self with next } }
  have kept : headers.payload m = some (h.self.data, h.block) := by
    rw [Headers.payload, found]
    rfl
  refine ⟨headers', set, ?_, ?_⟩
  · rw [links, Links.setNext, Option.elim_some, there]
    rfl
  · rw [payload, ← kept, Function.update_eq_self]

theorem Headers.setPrev_spec {link : Link Address} (there : headers.links m = some link) (prev : Option Address) :
    ∃ headers', headers.setPrev m prev = some headers' ∧
      headers'.links = headers.links.setPrev (some m) prev ∧ headers'.payload = headers.payload := by
  obtain ⟨h, found, rfl⟩ := Option.map_eq_some_iff.mp there
  obtain ⟨headers', set, links, payload⟩ :=
    Headers.modify_spec found fun h => { h with self := { h.self with prev } }
  have kept : headers.payload m = some (h.self.data, h.block) := by
    rw [Headers.payload, found]
    rfl
  refine ⟨headers', set, ?_, ?_⟩
  · rw [links, Links.setPrev, Option.elim_some, there]
    rfl
  · rw [payload, ← kept, Function.update_eq_self]

end Fields

/-! ## `dlink_add` and `dlink_move` -/

section Lists

variable {headers : Headers} {list : DlinkList} {nodes left right : List Address} {m : Address}

/-- The new head is linked in front of the old one. -/
theorem dlinkHead_spec (linked : Linked headers.links list.ends nodes) :
    ∃ headers', dlinkHead m headers list = some (headers', ⟨some m, (m :: nodes).getLast?, list.length + 1⟩) ∧
      headers'.links = headers.links.setPrev nodes.head? (some m) ∧ headers'.payload = headers.payload := by
  have head : list.head = nodes.head? := linked.head
  have tail : list.tail = nodes.getLast? := linked.tail
  cases nodes with
  | nil =>
    refine ⟨headers, ?_, rfl, rfl⟩
    simp only [List.head?_nil] at head
    simp only [List.getLast?_nil] at tail
    simp [dlinkHead, head, tail]
  | cons first rest =>
    obtain ⟨link, there⟩ := linked.segment.isSome (List.mem_cons_self ..)
    obtain ⟨headers', set, links, payload⟩ := Headers.setPrev_spec there (some m)
    refine ⟨headers', ?_, links, payload⟩
    simp only [List.head?_cons] at head
    simp [dlinkHead, head, set, tail, List.getLast?_cons_cons]

/-- A node whose links are set goes in front of a list. -/
private theorem dlinkHead_push (linked : Linked headers.links list.ends nodes) (fresh : m ∉ nodes) {headers₁ : Headers}
    (links₁ : headers₁.links = Function.update headers.links m (some ⟨nodes.head?, none⟩)) :
    ∃ headers', dlinkHead m headers₁ list = some (headers', ⟨some m, (m :: nodes).getLast?, list.length + 1⟩) ∧
      Linked headers'.links ⟨some m, (m :: nodes).getLast?⟩ (m :: nodes) ∧ headers'.payload = headers₁.payload ∧
      ∀ k, k ∉ m :: nodes → headers'.links k = headers.links k := by
  have kept : Linked headers₁.links list.ends nodes := by
    apply linked.congr
    intro k member
    rw [links₁, Function.update_of_ne]
    rintro rfl
    exact fresh member
  have pushed := linked.push fresh
  obtain ⟨headers', ran, links, payload⟩ := dlinkHead_spec (m := m) kept
  rw [← links₁, ← links] at pushed
  refine ⟨headers', ran, pushed, payload, ?_⟩
  intro k outside
  simp only [List.mem_cons, not_or] at outside
  rw [links, Links.setPrev_of_ne _ fun same => outside.2 (List.mem_of_head? same), links₁,
    Function.update_of_ne outside.1]

/-- Unlinking from the successor. -/
private theorem unlinkNext_spec (linked : Linked headers.links list.ends (left ++ m :: right)) {h : MemBlock}
    (next : h.self.next = right.head?) (prev : h.self.prev = left.getLast?) :
    ∃ headers', unlinkNext h headers list = some (headers', { list with tail := (left ++ right).getLast? }) ∧
      headers'.links = headers.links.setPrev right.head? left.getLast? ∧ headers'.payload = headers.payload := by
  have tail : list.tail = (left ++ m :: right).getLast? := linked.tail
  cases right with
  | nil =>
    refine ⟨headers, ?_, rfl, rfl⟩
    simp only [List.head?_nil] at next
    simp [unlinkNext, next, prev]
  | cons first rest =>
    obtain ⟨link, there⟩ := linked.segment.isSome (k := first) (by simp)
    obtain ⟨headers', set, links, payload⟩ := Headers.setPrev_spec there left.getLast?
    refine ⟨headers', ?_, links, payload⟩
    simp only [List.head?_cons] at next
    have same : list.tail = (left ++ first :: rest).getLast? := by
      rw [tail, List.getLast?_append, List.getLast?_append, List.getLast?_cons_cons]
    simp only [unlinkNext, next, prev, set, Option.map_some, ← same]

/-- Unlinking from the predecessor. -/
private theorem unlinkPrev_spec (there : ∀ k ∈ left, ∃ link, headers.links k = some link)
    (head : list.head = (left ++ m :: right).head?) {h : MemBlock} (next : h.self.next = right.head?)
    (prev : h.self.prev = left.getLast?) :
    ∃ headers', unlinkPrev h headers list = some (headers', { list with head := (left ++ right).head? }) ∧
      headers'.links = headers.links.setNext left.getLast? right.head? ∧ headers'.payload = headers.payload := by
  cases last : left.getLast? with
  | none =>
    obtain rfl := List.getLast?_eq_none_iff.mp last
    refine ⟨headers, ?_, rfl, rfl⟩
    rw [last] at prev
    simp [unlinkPrev, next, prev]
  | some k =>
    obtain ⟨link, found⟩ := there k (List.mem_of_getLast? last)
    obtain ⟨headers', set, links, payload⟩ := Headers.setNext_spec found right.head?
    refine ⟨headers', ?_, links, payload⟩
    rw [last] at prev
    have same : list.head = (left ++ right).head? := by
      rw [head]
      cases left with
      | nil => cases last
      | cons => rfl
    simp only [unlinkPrev, next, prev, set, Option.map_some, ← same]

/-- Setting both links of a node that is there. -/
private theorem setPrev_setNext {links : Links Address} {link : Link Address} (there : links m = some link)
    (next : Option Address) :
    (links.setPrev (some m) none).setNext (some m) next = Function.update links m (some ⟨next, none⟩) := by
  rw [Links.setNext, Option.elim_some, Links.setPrev, Option.elim_some, Function.update_self, Function.update_idem,
    there]
  rfl

/-- The first half of `dlink_move`: the neighbours of the node are linked to each other. -/
private theorem unlink_spec (old : Linked headers.links list.ends (left ++ m :: right)) :
    ∃ h headers₁ list₁ headers', headers m = some h ∧ unlinkNext h headers list = some (headers₁, list₁) ∧
      headers₁ m = some h ∧ unlinkPrev h headers₁ list₁ =
        some (headers', ⟨(left ++ right).head?, (left ++ right).getLast?, list.length⟩) ∧
      Linked headers'.links ⟨(left ++ right).head?, (left ++ right).getLast?⟩ (left ++ right) ∧
      headers'.payload = headers.payload ∧ ∀ k, k ∉ left ++ right → headers'.links k = headers.links k := by
  obtain ⟨-, others, apart⟩ := List.nodup_append.mp old.nodup
  obtain ⟨fresh, -⟩ := List.nodup_cons.mp others
  obtain ⟨h, found, next, prev⟩ := Headers.of_links old.link
  obtain ⟨headers₁, ran₁, links₁, payload₁⟩ := unlinkNext_spec old next prev
  have again : headers₁ m = some h := by
    rw [← found]
    apply Headers.ext_at
    · rw [links₁, Links.setPrev_of_ne _ fun same => fresh (List.mem_of_head? same)]
    · rw [payload₁]
  have there : ∀ k ∈ left, ∃ link, headers₁.links k = some link := by
    intro k member
    rw [links₁, Links.setPrev_of_ne]
    · exact old.segment.isSome (List.mem_append_left _ member)
    · intro same
      exact apart k member k (List.mem_cons_of_mem _ (List.mem_of_head? same)) rfl
  have head : ({ list with tail := (left ++ right).getLast? } : DlinkList).head = (left ++ m :: right).head? := old.head
  obtain ⟨headers', ran, links, payload⟩ := unlinkPrev_spec there head next prev
  have unlinked := old.unlink
  rw [← links₁, ← links] at unlinked
  refine ⟨h, headers₁, _, headers', found, ran₁, again, ran, unlinked, payload.trans payload₁, ?_⟩
  intro k outside
  simp only [List.mem_append, not_or] at outside
  rw [links, Links.setNext_of_ne _ fun same => outside.1 (List.mem_of_getLast? same), links₁,
    Links.setPrev_of_ne _ fun same => outside.2 (List.mem_of_head? same)]

/-- The second half: the node is put in front of the other list. -/
private theorem relink_spec {link : Link Address} (there : headers.links m = some link)
    (new : Linked headers.links list.ends nodes) (fresh : m ∉ nodes) :
    ∃ headers₁ headers₂ headers', headers.setPrev m none = some headers₁ ∧
      headers₁.setNext m list.head = some headers₂ ∧
      dlinkHead m headers₂ list = some (headers', ⟨some m, (m :: nodes).getLast?, list.length + 1⟩) ∧
      Linked headers'.links ⟨some m, (m :: nodes).getLast?⟩ (m :: nodes) ∧ headers'.payload = headers.payload ∧
      ∀ k, k ∉ m :: nodes → headers'.links k = headers.links k := by
  obtain ⟨headers₁, ran₁, links₁, payload₁⟩ := Headers.setPrev_spec there none
  obtain ⟨link₁, there₁⟩ : ∃ link, headers₁.links m = some link := by
    rw [links₁, Links.setPrev, Option.elim_some, Function.update_self, there]
    exact ⟨_, rfl⟩
  obtain ⟨headers₂, ran₂, links₂, payload₂⟩ := Headers.setNext_spec there₁ list.head
  rw [links₁, setPrev_setNext there, show list.head = nodes.head? from new.head] at links₂
  obtain ⟨headers', ran, pushed, payload, same⟩ := dlinkHead_push new fresh links₂
  exact ⟨headers₁, headers₂, headers', ran₁, ran₂, ran, pushed, payload.trans (payload₂.trans payload₁), same⟩

/-- `dlink_move` takes the node out of one list and puts it in front of another, and changes no other header. -/
theorem dlinkMove_spec {oldlist newlist : DlinkList} (old : Linked headers.links oldlist.ends (left ++ m :: right))
    (new : Linked headers.links newlist.ends nodes) (disjoint : (left ++ m :: right).Disjoint nodes) :
    ∃ headers' oldlist' newlist', dlinkMove m headers oldlist newlist = some (headers', oldlist', newlist') ∧
      oldlist'.length = oldlist.length - 1 ∧ newlist'.length = newlist.length + 1 ∧
      Linked headers'.links oldlist'.ends (left ++ right) ∧ Linked headers'.links newlist'.ends (m :: nodes) ∧
      headers'.payload = headers.payload ∧
      ∀ k, k ∉ left ++ m :: right → k ∉ nodes → headers'.links k = headers.links k := by
  have part : (left ++ right).Sublist (left ++ m :: right) := (List.sublist_cons_self m right).append_left left
  have disjoint' : (left ++ right).Disjoint nodes := fun k member => disjoint (part.subset member)
  have gone : m ∉ left ++ right := (List.nodup_middle.mp old.nodup).notMem
  obtain ⟨h, headers₁, list₁, headers₂, found, ran₁, again, ran₂, unlinked, payload₂, same₂⟩ := unlink_spec old
  have kept : Linked headers₂.links newlist.ends nodes :=
    new.congr fun k member => same₂ k fun listed => disjoint' listed member
  obtain ⟨headers₃, headers₄, headers', ran₃, ran₄, ran₅, pushed, payload, same⟩ :=
    relink_spec ((same₂ m gone).trans old.link) kept fun member => disjoint (by simp) member
  refine ⟨headers', ⟨(left ++ right).head?, (left ++ right).getLast?, oldlist.length - 1⟩,
    ⟨some m, (m :: nodes).getLast?, newlist.length + 1⟩, ?_, rfl, rfl, ?_, pushed, payload.trans payload₂, ?_⟩
  · simp only [dlinkMove, found, ran₁, again, ran₂, ran₃, ran₄, ran₅, bind, Option.bind_some]
  · apply unlinked.congr
    intro k member
    apply same
    simp only [List.mem_cons, not_or]
    exact ⟨fun here => gone (here ▸ member), disjoint' member⟩
  · intro k notOld notListed
    simp only [List.mem_append, List.mem_cons, not_or] at notOld
    rw [same k (by simp [notOld.2.1, notListed]), same₂ k (by simp [notOld.1, notOld.2.2])]

/-- `dlink_add` of a header that is there. -/
theorem dlinkAdd_spec {h : MemBlock} (found : headers m = some h) (linked : Linked headers.links list.ends nodes)
    (fresh : m ∉ nodes) (data : Address) :
    ∃ headers' list', dlinkAdd data m headers list = some (headers', list') ∧ list'.length = list.length + 1 ∧
      Linked headers'.links list'.ends (m :: nodes) ∧
      headers'.payload = Function.update headers.payload m (some (some data, h.block)) ∧
      ∀ k, k ∉ m :: nodes → headers'.links k = headers.links k := by
  obtain ⟨headers₁, set, links₁, payload₁⟩ := Headers.modify_spec found fun h =>
    { h with self := { data := some data, next := list.head, prev := none } }
  simp only [show list.head = nodes.head? from linked.head] at links₁
  obtain ⟨headers₂, ran, pushed, payload₂, same⟩ := dlinkHead_push linked fresh links₁
  refine ⟨headers₂, ⟨some m, (m :: nodes).getLast?, list.length + 1⟩, ?_, rfl, pushed, payload₂.trans payload₁, same⟩
  simp only [dlinkAdd, set, bind, Option.bind_some, ran]

end Lists

end FsPkg.BallocMemory
