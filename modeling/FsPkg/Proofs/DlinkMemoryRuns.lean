import FsPkg.Machine.Run
import FsPkg.Model.Dlink
import FsPkg.Proofs.DlinkMemorySpec
import Mathlib.Order.Interval.Finset.Nat

/-! # The lists of `dlink.c` are sequences

Any number of lists share the nodes of one memory. Along every history of calls that pass a free node to be put in, and
a node of the list to be taken out, the links of each list lead through one sequence and back, its counter is the length
of it, and each call changes the sequences of the lists it is given as its name says.
-/

namespace FsPkg.DlinkMemory

open Machine

/-! ## Sequences -/

/-- The nodes of each list, and the data that was put in with each node. -/
structure Sequences where
  lists : Address → Option (List Address)
  data : Address → UInt64

namespace Sequences

/-- The lists of a memory, all of them empty. -/
def empty (start : Memory) : Sequences where
  lists list := (start.lists list).map fun _ => []
  data _ := 0

/-- Another sequence for one list. -/
def change (s : Sequences) (list : Address) (f : List Address → List Address) : Sequences :=
  { s with lists := Function.update s.lists list ((s.lists list).map f) }

def store (s : Sequences) (m : Address) (data : UInt64) : Sequences :=
  { s with data := Function.update s.data m data }

/-- The node is in no list. -/
def Free (s : Sequences) (m : Address) : Prop :=
  ∀ list nodes, s.lists list = some nodes → m ∉ nodes

/-- The node is in the list. -/
def Holds (s : Sequences) (list m : Address) : Prop :=
  ∃ nodes, s.lists list = some nodes ∧ m ∈ nodes

end Sequences

/-- The sequence with a node in front of another one. -/
def insertBefore (b m : Address) (nodes : List Address) : List Address :=
  nodes.takeWhile (· ≠ b) ++ m :: nodes.dropWhile (· ≠ b)

/-! ## Calls -/

/-- One call. -/
inductive DlinkOp where
  | dlinkAdd (data : UInt64) (m list : Address)
  | dlinkAddBefore (b : Address) (data : UInt64) (m list : Address)
  | dlinkAddTail (data : UInt64) (m list : Address)
  | dlinkDelete (m list : Address)
  | dlinkFindDelete (data : UInt64) (list : Address)
  | dlinkMove (m oldlist newlist : Address)
deriving DecidableEq

namespace DlinkOp

/-- The call on the memory: what it returns, `NULL` if it returns nothing, and the memory afterwards. -/
def run (mem : Memory) : DlinkOp → Option (Option Address × Memory)
  | .dlinkAdd data m list => (DlinkMemory.dlinkAdd data m list mem).map (none, ·)
  | .dlinkAddBefore b data m list => (DlinkMemory.dlinkAddBefore b data m list mem).map (none, ·)
  | .dlinkAddTail data m list => (DlinkMemory.dlinkAddTail data m list mem).map (none, ·)
  | .dlinkDelete m list => (DlinkMemory.dlinkDelete m list mem).map (none, ·)
  | .dlinkFindDelete data list => DlinkMemory.dlinkFindDelete data list mem
  | .dlinkMove m oldlist newlist => (DlinkMemory.dlinkMove (some m) (some oldlist) (some newlist) mem).map (none, ·)

/-- The call on the sequences. -/
def apply (s : Sequences) : DlinkOp → Sequences
  | .dlinkAdd data m list => (s.store m data).change list (m :: ·)
  | .dlinkAddBefore b data m list => (s.store m data).change list (insertBefore b m)
  | .dlinkAddTail data m list => (s.store m data).change list (· ++ [m])
  | .dlinkDelete m list => s.change list (·.erase m)
  | .dlinkFindDelete data list => s.change list (·.eraseP (s.data · = data))
  | .dlinkMove m oldlist newlist => (s.change oldlist (·.erase m)).change newlist (m :: ·)

/-- The node that `dlink_find_delete` returns. -/
def returns (s : Sequences) : DlinkOp → Option Address
  | .dlinkFindDelete data list => (s.lists list).bind (·.find? (s.data · = data))
  | _ => none

/-- The lists passed to the call. -/
def passed : DlinkOp → List Address
  | .dlinkAdd _ _ list | .dlinkAddBefore _ _ _ list | .dlinkAddTail _ _ list => [list]
  | .dlinkDelete _ list | .dlinkFindDelete _ list => [list]
  | .dlinkMove _ oldlist newlist => [oldlist, newlist]

/-- A node that is put in is free, and one that is named as a place or taken out is in the list. -/
def Proper (start : Memory) (s : Sequences) : DlinkOp → Prop
  | .dlinkAdd _ m list | .dlinkAddTail _ m list => (start.nodes m).isSome ∧ s.Free m ∧ (s.lists list).isSome
  | .dlinkAddBefore b _ m list => (start.nodes m).isSome ∧ s.Free m ∧ s.Holds list b
  | .dlinkDelete m list => s.Holds list m
  | .dlinkFindDelete _ list => (s.lists list).isSome
  | .dlinkMove m oldlist newlist => s.Holds oldlist m ∧ (s.lists newlist).isSome

/-- A proper call, as a step of the sequences. -/
def Step (start : Memory) (s : Sequences) (op : DlinkOp) (s' : Sequences) : Prop :=
  op.Proper start s ∧ s' = op.apply s

end DlinkOp

/-! ## Memories that hold sequences -/

/-- The links of each list are those of its sequence; no node is in two lists. -/
structure Chained (start mem : Memory) (s : Sequences) : Prop where
  nodes : ∀ k, (mem.data k).isSome = (start.nodes k).isSome
  lists : ∀ list, (mem.lists list).isSome = (s.lists list).isSome
  linked : ∀ list l nodes, mem.lists list = some l → s.lists list = some nodes → Linked mem.links l.ends nodes
  apart : ∀ list list' nodes nodes', list ≠ list' → s.lists list = some nodes → s.lists list' = some nodes' →
    nodes.Disjoint nodes'
  data : ∀ list nodes, s.lists list = some nodes → ∀ k ∈ nodes, mem.data k = some (s.data k)

/-- The counters are right. -/
def Counted (mem : Memory) (s : Sequences) : Prop :=
  ∀ list l nodes, mem.lists list = some l → s.lists list = some nodes → Dlink.DlinkList.Counted ⟨nodes, l.length⟩

/-- The list leads through the nodes and back. -/
def IsSequence (mem : Memory) (list : Address) (nodes : List Address) : Prop :=
  ∃ l, mem.lists list = some l ∧
    (∀ fuel ≥ nodes.length, mem.links.follow Link.next fuel l.head = some nodes) ∧
    (∀ fuel ≥ nodes.length, mem.links.follow Link.prev fuel l.tail = some nodes.reverse) ∧
    l.length.toNat = nodes.length ∧ (l.head = none ↔ nodes = []) ∧ (l.tail = none ↔ nodes = [])

/-- Every list of the memory is its sequence, and every node in it has its data. -/
def Shows (mem : Memory) (s : Sequences) : Prop :=
  ∀ list, ((mem.lists list).isSome = (s.lists list).isSome) ∧
    ∀ nodes, s.lists list = some nodes → IsSequence mem list nodes ∧ ∀ k ∈ nodes, mem.data k = some (s.data k)

section Chained

variable {start mem mem' : Memory} {s : Sequences} {list m : Address} {l l' : DlinkList}
  {nodes nodes' touched : List Address}

/-- There are more numbers than nodes. -/
theorem length_lt_of_nodup (nodup : nodes.Nodup) : nodes.length < 2 ^ 64 := by
  have injective : Function.Injective fun k : Address => k.1.toNat := by
    intro k k' same
    exact Subtype.ext (UInt64.toNat_inj.mp same)
  have small : (nodes.map fun k : Address => k.1.toNat).toFinset ⊆ Finset.Ico 1 (2 ^ 64) := by
    intro n member
    obtain ⟨k, -, rfl⟩ := List.mem_map.mp (List.mem_toFinset.mp member)
    have positive : k.1.toNat ≠ 0 := fun zero => k.2 (UInt64.toNat_inj.mp zero)
    have bound := k.1.toNat_lt
    rw [Finset.mem_Ico]
    omega
  have card := Finset.card_le_card small
  rw [List.toFinset_card_of_nodup (nodup.map injective), List.length_map, Nat.card_Ico] at card
  omega

theorem Chained.found (chained : Chained start mem s) (there : s.lists list = some nodes) :
    ∃ l, mem.lists list = some l ∧ Linked mem.links l.ends nodes := by
  have both := chained.lists list
  rw [there, Option.isSome_some, Option.isSome_iff_exists] at both
  obtain ⟨l, found⟩ := both
  exact ⟨l, found, chained.linked list l nodes found there⟩

/-- `dlink_find` ends, and finds the first node with the data. -/
theorem Chained.dlinkFind_spec (chained : Chained start mem s) (there : s.lists list = some nodes) (data : UInt64) :
    dlinkFind data list mem = some (nodes.find? (s.data · = data)) := by
  obtain ⟨l, found, linked⟩ := chained.found there
  have head : l.head = nodes.head? := linked.head
  rw [dlinkFind, found]
  change findLoop data mem addresses l.head = _
  rw [head]
  exact findLoop_spec linked.segment (chained.data list nodes there) (length_lt_of_nodup linked.nodup).le

/-- Links that are right are found by following them. -/
theorem Chained.shows (chained : Chained start mem s) (counted : Counted mem s) : Shows mem s := by
  intro list
  refine ⟨chained.lists list, fun nodes there => ⟨?_, chained.data list nodes there⟩⟩
  obtain ⟨l, found, linked⟩ := chained.found there
  have head : l.head = nodes.head? := linked.head
  have tail : l.tail = nodes.getLast? := linked.tail
  refine ⟨l, found, ?_, ?_, counted list l nodes found there, ?_, ?_⟩
  · intro fuel enough
    rw [head]
    exact linked.segment.follow_next enough
  · intro fuel enough
    rw [tail]
    exact linked.segment.follow_prev enough
  · rw [head, List.head?_eq_none_iff]
  · rw [tail, List.getLast?_eq_none_iff]

theorem Sequences.change_of_ne {other : Address} (different : other ≠ list) (f : List Address → List Address) :
    (s.change list f).lists other = s.lists other :=
  Function.update_of_ne different ..

/-- A sequence after the change is the changed one or another one. -/
theorem Sequences.of_change (there : s.lists list = some nodes) {f : List Address → List Address} {other : Address}
    {others : List Address} (listed : (s.change list f).lists other = some others) :
    (other = list ∧ others = f nodes) ∨ (other ≠ list ∧ s.lists other = some others) := by
  rw [Sequences.change, there] at listed
  exact update_some_eq_some.mp listed

theorem Sequences.isSome_change (f : List Address → List Address) (other : Address) :
    ((s.change list f).lists other).isSome = (s.lists other).isSome := by
  rcases eq_or_ne other list with rfl | different
  · have changed : (s.change other f).lists other = (s.lists other).map f := Function.update_self ..
    rw [changed, Option.isSome_map]
  · rw [Sequences.change_of_ne different]

/-- What is left of the memory when some lists are passed to a call. -/
def Unchanged (mem mem' : Memory) (s : Sequences) (passed : List Address) : Prop :=
  ∀ list, list ∉ passed → mem'.lists list = mem.lists list ∧
    ∀ nodes, s.lists list = some nodes → ∀ k ∈ nodes, mem'.nodes k = mem.nodes k

/-- A node of another list is neither in this list nor free. -/
theorem Chained.not_mem_other (chained : Chained start mem s) (there : s.lists list = some nodes)
    (own : ∀ k ∈ touched, k ∈ nodes ∨ s.Free k) {other : Address} (different : other ≠ list) {others : List Address}
    (found : s.lists other = some others) {k : Address} (member : k ∈ others) : k ∉ touched := by
  intro inside
  rcases own k inside with here | free
  · exact chained.apart other list others nodes different found there member here
  · exact free other others found member

/-- A list that is relinked holds its new sequence, and the others hold theirs. -/
theorem Chained.relinked (chained : Chained start mem s) (there : s.lists list = some nodes)
    (relinked : Relinked mem mem' list l' touched nodes') (own : ∀ k ∈ touched, k ∈ nodes ∨ s.Free k)
    (own' : ∀ k ∈ nodes', k ∈ nodes ∨ s.Free k) (data : ∀ k ∈ nodes', mem.data k = some (s.data k))
    {f : List Address → List Address} (same : f nodes = nodes') : Chained start mem' (s.change list f) where
  nodes k := by rw [relinked.data, chained.nodes]
  lists other := by
    rw [relinked.lists, Sequences.isSome_change, ← chained.lists, Function.update_apply]
    split_ifs with here
    · obtain ⟨l, found, -⟩ := chained.found there
      rw [here, found]
      rfl
    · rfl
  linked other l others found listed := by
    rw [relinked.lists] at found
    rcases Sequences.of_change there listed with ⟨rfl, rfl⟩ | ⟨here, listed⟩
    · rw [Function.update_self] at found
      obtain rfl := Option.some.inj found
      rw [same]
      exact relinked.linked
    · rw [Function.update_of_ne here] at found
      apply (chained.linked other l others found listed).congr
      intro k member
      exact relinked.links k (chained.not_mem_other there own here listed member)
  apart first second left right different foundLeft foundRight := by
    intro k inLeft inRight
    rcases Sequences.of_change there foundLeft with ⟨rfl, rfl⟩ | ⟨-, keptLeft⟩
    · rw [Sequences.change_of_ne (Ne.symm different)] at foundRight
      rw [same] at inLeft
      exact chained.not_mem_other there own' (Ne.symm different) foundRight inRight inLeft
    · rcases Sequences.of_change there foundRight with ⟨rfl, rfl⟩ | ⟨-, keptRight⟩
      · rw [same] at inRight
        exact chained.not_mem_other there own' different keptLeft inLeft inRight
      · exact chained.apart first second left right different keptLeft keptRight inLeft inRight
  data other others listed k member := by
    rw [relinked.data]
    rcases Sequences.of_change there listed with ⟨rfl, rfl⟩ | ⟨-, listed⟩
    · rw [same] at member
      exact data k member
    · exact chained.data other others listed k member

theorem Chained.unchanged (chained : Chained start mem s) (there : s.lists list = some nodes)
    (relinked : Relinked mem mem' list l' touched nodes') (own : ∀ k ∈ touched, k ∈ nodes ∨ s.Free k) :
    Unchanged mem mem' s [list] := by
  intro other outside
  have different : other ≠ list := fun same => outside (List.mem_singleton.mpr same)
  refine ⟨by rw [relinked.lists, Function.update_of_ne different], ?_⟩
  intro others found k member
  apply Memory.nodes_ext
  · exact relinked.links k (chained.not_mem_other there own different found member)
  · rw [relinked.data]

/-- The counters are right as soon as each of them is changed so. -/
def CountedBy (count : Address → UInt64 → UInt64) (mem : Memory) (s : Sequences) : Prop :=
  ∀ list l nodes, mem.lists list = some l → s.lists list = some nodes →
    Dlink.DlinkList.Counted ⟨nodes, count list l.length⟩

theorem CountedBy.change {count count' : Address → UInt64 → UInt64} (counted : CountedBy count mem s)
    (lists : mem'.lists = Function.update mem.lists list (some l')) (there : s.lists list = some nodes)
    {f : List Address → List Address}
    (kept : ∀ other, other ≠ list → ∀ length, count' other length = count other length)
    (right : Dlink.DlinkList.Counted ⟨f nodes, count' list l'.length⟩) : CountedBy count' mem' (s.change list f) := by
  intro other l others found listed
  rw [lists] at found
  rcases Sequences.of_change there listed with ⟨rfl, rfl⟩ | ⟨here, listed⟩
  · rw [Function.update_self] at found
    obtain rfl := Option.some.inj found
    exact right
  · rw [Function.update_of_ne here] at found
    rw [kept other here]
    exact counted other l others found listed

/-- The counters are changed. -/
theorem CountedBy.lengths {count : Address → UInt64 → UInt64} (counted : CountedBy count mem s)
    (lists : ∀ k, mem'.lists k = (mem.lists k).map fun l => { l with length := count k l.length }) :
    Counted mem' s := by
  intro list l nodes found listed
  rw [lists] at found
  obtain ⟨l₀, before, rfl⟩ := Option.map_eq_some_iff.mp found
  exact counted list l₀ nodes before listed

/-- Right counters need no change. -/
theorem Counted.countedBy (counted : Counted mem s) : CountedBy (fun _ length => length) mem s :=
  counted

/-- Out of its list, a node is free. -/
theorem Chained.free_erase (chained : Chained start mem s) (there : s.lists list = some nodes) (member : m ∈ nodes) :
    (s.change list (·.erase m)).Free m := by
  intro other others listed
  rcases Sequences.of_change there listed with ⟨rfl, rfl⟩ | ⟨here, listed⟩
  · obtain ⟨l, -, linked⟩ := chained.found there
    exact linked.nodup.not_mem_erase
  · exact fun inOther => chained.apart _ _ _ _ here listed there inOther member

/-- `m->data = data` for a free node. -/
theorem Chained.store (chained : Chained start mem s) (counted : Counted mem s) (known : (start.nodes m).isSome)
    (free : s.Free m) (data : UInt64) :
    ∃ mem₀ link, mem.setData m data = some mem₀ ∧ mem₀.links m = some link ∧ mem₀.lists = mem.lists ∧
      Chained start mem₀ (s.store m data) ∧ Counted mem₀ (s.store m data) ∧ mem₀.data m = some data ∧
      Unchanged mem mem₀ s [] := by
  have there := chained.nodes m
  rw [known, Memory.data, Option.isSome_map] at there
  obtain ⟨link, there⟩ := Memory.exists_link there
  obtain ⟨mem₀, set, links, data₀, lists⟩ := Memory.setData_spec there data
  have other {list : Address} {nodes : List Address} (listed : s.lists list = some nodes) {k : Address}
      (member : k ∈ nodes) : k ≠ m := by
    rintro rfl
    exact free list nodes listed member
  refine ⟨mem₀, link, set, by rw [links, there], lists, ⟨?_, ?_, ?_, chained.apart, ?_⟩, ?_, ?_, ?_⟩
  · intro k
    rw [data₀]
    rcases eq_or_ne k m with rfl | here
    · rw [Function.update_self, known]
      rfl
    · rw [Function.update_of_ne here, chained.nodes]
  · intro list
    rw [lists]
    exact chained.lists list
  · intro list l nodes found listed
    rw [lists] at found
    rw [links]
    exact chained.linked list l nodes found listed
  · intro list nodes listed k member
    have stored : (s.store m data).data k = s.data k := Function.update_of_ne (other listed member) ..
    rw [data₀, Function.update_of_ne (other listed member), stored]
    exact chained.data list nodes listed k member
  · intro list l nodes found listed
    rw [lists] at found
    exact counted list l nodes found listed
  · rw [data₀, Function.update_self]
  · intro list _
    refine ⟨by rw [lists], fun nodes listed k member => ?_⟩
    apply Memory.nodes_ext
    · rw [links]
    · rw [data₀, Function.update_of_ne (other listed member)]

/-- The counters are not among the links. -/
theorem Chained.lengths (chained : Chained start mem s) (count : Address → UInt64 → UInt64)
    (nodes : mem'.nodes = mem.nodes)
    (lists : ∀ k, mem'.lists k = (mem.lists k).map fun l => { l with length := count k l.length }) :
    Chained start mem' s := by
  have links : mem'.links = mem.links := by
    funext k
    rw [Memory.links, nodes]
    rfl
  have data : mem'.data = mem.data := by
    funext k
    rw [Memory.data, nodes]
    rfl
  refine ⟨?_, ?_, ?_, chained.apart, ?_⟩
  · rw [data]
    exact chained.nodes
  · intro list
    rw [lists, Option.isSome_map, chained.lists]
  · intro list l nodes found listed
    rw [lists] at found
    obtain ⟨l₀, before, rfl⟩ := Option.map_eq_some_iff.mp found
    rw [links]
    exact chained.linked list l₀ nodes before listed
  · rw [data]
    exact chained.data

end Chained

/-! ## One call -/

theorem insertBefore_append {b : Address} (m : Address) {left : List Address} (right : List Address)
    (outside : b ∉ left) :
    insertBefore b m (left ++ b :: right) = left ++ m :: b :: right := by
  have others : ∀ k ∈ left, decide (k ≠ b) = true := by
    intro k member
    rw [decide_eq_true_eq]
    rintro rfl
    exact outside member
  rw [insertBefore, List.takeWhile_append_of_pos others, List.dropWhile_append_of_pos others,
    List.takeWhile_cons_of_neg (by simp), List.dropWhile_cons_of_neg (by simp), List.append_nil]

theorem counted_erase {left right : List Address} {m : Address} {length : UInt64}
    (counted : Dlink.DlinkList.Counted ⟨left ++ m :: right, length⟩) :
    Dlink.DlinkList.Counted ⟨left ++ right, length - 1⟩ := by
  have positive : (1 : UInt64) ≤ length := by
    rw [UInt64.le_iff_toNat_le, counted]
    simp only [List.length_append, List.length_cons, UInt64.toNat_one]
    omega
  rw [Dlink.DlinkList.Counted, UInt64.toNat_sub_of_le _ _ positive, counted]
  simp only [List.length_append, List.length_cons, UInt64.toNat_one]
  omega

/-- Taking out the first node of its kind. -/
theorem eraseP_append {p : Address → Bool} {left right : List Address} {m : Address} (before : ∀ k ∈ left, p k = false)
    (found : p m = true) : (left ++ m :: right).eraseP p = left ++ right := by
  rw [List.eraseP_append_right _ fun k member => by simp [before k member], List.eraseP_cons_of_pos found]

/-- The call runs, and the memory holds what it makes of the sequences. -/
def Follows (start mem : Memory) (s : Sequences) (op : DlinkOp) : Prop :=
  ∃ mem', op.run mem = some (op.returns s, mem') ∧ Chained start mem' (op.apply s) ∧ Counted mem' (op.apply s) ∧
    Unchanged mem mem' s op.passed

section Calls

variable {start mem : Memory} {s : Sequences} (chained : Chained start mem s) (counted : Counted mem s)
include chained counted

/-- The three functions that put a node in differ in the place they put it. -/
theorem follows_put {m list : Address} {data : UInt64} {nodes : List Address} (known : (start.nodes m).isSome)
    (free : s.Free m) (there : s.lists list = some nodes) {op : DlinkOp} {call : Memory → Option Memory}
    (run : ∀ mem, op.run mem = (call mem).map (none, ·)) (returns : op.returns s = none) (passed : op.passed = [list])
    {f : List Address → List Address} (apply : op.apply s = (s.store m data).change list f)
    (place : ∃ ends : Ends Address, ∀ mem₀ link l, mem.setData m data = some mem₀ → mem₀.links m = some link →
      mem₀.lists = mem.lists → mem₀.lists list = some l → Linked mem₀.links l.ends nodes →
      ∃ mem', call mem = some mem' ∧
        Relinked mem₀ mem' list ⟨ends.head, ends.tail, l.length + 1⟩ (m :: nodes) (f nodes))
    (members : ∀ k, k ∈ f nodes ↔ k = m ∨ k ∈ nodes) (longer : (f nodes).length = nodes.length + 1) :
    Follows start mem s op := by
  obtain ⟨mem₀, link, set, linkM, lists₀, chained₀, counted₀, data₀, unchanged₀⟩ :=
    chained.store counted known free data
  obtain ⟨l, found, linked⟩ := chained₀.found there
  obtain ⟨ends, place⟩ := place
  obtain ⟨mem', ran, relinked⟩ := place mem₀ link l set linkM lists₀ found linked
  have own : ∀ k, k = m ∨ k ∈ nodes → k ∈ nodes ∨ (s.store m data).Free k := by
    rintro k (rfl | member)
    · exact .inr free
    · exact .inl member
  have touched : ∀ k ∈ m :: nodes, k ∈ nodes ∨ (s.store m data).Free k :=
    fun k member => own k (List.mem_cons.mp member)
  refine ⟨mem', ?_, ?_, ?_, ?_⟩
  · rw [run, ran, returns]
    rfl
  · rw [apply]
    refine chained₀.relinked there relinked touched (fun k member => own k ((members k).mp member)) ?_ rfl
    intro k member
    rcases (members k).mp member with rfl | before
    · have stored : (s.store k data).data k = data := Function.update_self ..
      rw [data₀, stored]
    · exact chained₀.data list nodes there k before
  · rw [apply]
    apply counted₀.countedBy.change relinked.lists there fun _ _ _ => rfl
    have bound := length_lt_of_nodup relinked.linked.nodup
    exact (counted₀ list l nodes found there).add (f nodes) longer bound
  · rw [passed]
    intro other outside
    have second := chained₀.unchanged there relinked touched other outside
    have first := unchanged₀ other List.not_mem_nil
    refine ⟨second.1.trans first.1, fun others listed k member => ?_⟩
    rw [second.2 others listed k member, first.2 others listed k member]

theorem follows_dlinkAdd {data : UInt64} {m list : Address} (proper : (DlinkOp.dlinkAdd data m list).Proper start s) :
    Follows start mem s (.dlinkAdd data m list) := by
  obtain ⟨known, free, some_⟩ := proper
  obtain ⟨nodes, there⟩ := Option.isSome_iff_exists.mp some_
  refine follows_put chained counted known free there (fun _ => rfl) rfl rfl rfl ?_ (fun k => List.mem_cons) rfl
  refine ⟨⟨some m, (m :: nodes).getLast?⟩, fun mem₀ link l set linkM _ found linked => ?_⟩
  exact dlinkAdd_spec set linkM found linked (free list nodes there)

theorem follows_dlinkAddTail {data : UInt64} {m list : Address}
    (proper : (DlinkOp.dlinkAddTail data m list).Proper start s) :
    Follows start mem s (.dlinkAddTail data m list) := by
  obtain ⟨known, free, some_⟩ := proper
  obtain ⟨nodes, there⟩ := Option.isSome_iff_exists.mp some_
  refine follows_put chained counted known free there (fun _ => rfl) rfl rfl rfl ?_ ?_ ?_
  · refine ⟨⟨(nodes ++ [m]).head?, some m⟩, fun mem₀ link l set linkM _ found linked => ?_⟩
    exact dlinkAddTail_spec set linkM found linked (free list nodes there)
  · intro k
    rw [List.mem_append, List.mem_singleton, or_comm]
  · rw [List.length_append, List.length_singleton]

theorem follows_dlinkAddBefore {b : Address} {data : UInt64} {m list : Address}
    (proper : (DlinkOp.dlinkAddBefore b data m list).Proper start s) :
    Follows start mem s (.dlinkAddBefore b data m list) := by
  obtain ⟨known, free, nodes, there, member⟩ := proper
  obtain ⟨left, right, rfl, outside⟩ := List.eq_append_cons_of_mem member
  have place := insertBefore_append m right outside
  refine follows_put chained counted known free there (fun _ => rfl) rfl rfl rfl ?_ ?_ ?_
  · rw [place]
    refine ⟨⟨(left ++ m :: b :: right).head?, (left ++ m :: b :: right).getLast?⟩, ?_⟩
    intro mem₀ link l set linkM lists found linked
    exact dlinkAddBefore_spec set linkM lists found linked (free list _ there)
  · intro k
    rw [place, List.mem_append, List.mem_cons, List.mem_append]
    tauto
  · rw [place, List.length_append, List.length_cons, List.length_append]
    rfl

/-- A node is taken out of its list. -/
theorem taken {m list : Address} {l : DlinkList} {left right touched : List Address} {mem' : Memory}
    (there : s.lists list = some (left ++ m :: right)) (found : mem.lists list = some l)
    (relinked : Relinked mem mem' list ⟨(left ++ right).head?, (left ++ right).getLast?, l.length - 1⟩ touched
      (left ++ right)) (own : ∀ k ∈ touched, k ∈ left ++ m :: right) {f : List Address → List Address}
    (same : f (left ++ m :: right) = left ++ right) :
    Chained start mem' (s.change list f) ∧ Counted mem' (s.change list f) ∧ Unchanged mem mem' s [list] := by
  have part : ∀ k ∈ left ++ right, k ∈ left ++ m :: right := fun k member =>
    ((List.sublist_cons_self m right).append_left left).subset member
  have inside : ∀ k ∈ touched, k ∈ left ++ m :: right ∨ s.Free k := fun k member => .inl (own k member)
  refine ⟨?_, ?_, chained.unchanged there relinked inside⟩
  · refine chained.relinked there relinked inside (fun k member => .inl (part k member)) ?_ same
    exact fun k member => chained.data list _ there k (part k member)
  · apply counted.countedBy.change relinked.lists there fun _ _ _ => rfl
    rw [same]
    exact counted_erase (counted list l _ found there)

theorem follows_dlinkDelete {m list : Address} (proper : (DlinkOp.dlinkDelete m list).Proper start s) :
    Follows start mem s (.dlinkDelete m list) := by
  obtain ⟨nodes, there, member⟩ := proper
  obtain ⟨left, right, -, rfl, erased⟩ := List.exists_erase_eq member
  obtain ⟨l, found, linked⟩ := chained.found there
  obtain ⟨mem', ran, relinked⟩ := dlinkDelete_spec found linked
  refine ⟨mem', ?_, taken chained counted there found relinked ?_ erased⟩
  · rw [DlinkOp.run, ran]
    rfl
  · exact fun k member => ((List.sublist_cons_self m right).append_left left).subset member

theorem follows_dlinkFindDelete {data : UInt64} {list : Address}
    (proper : (DlinkOp.dlinkFindDelete data list).Proper start s) :
    Follows start mem s (.dlinkFindDelete data list) := by
  obtain ⟨nodes, there⟩ := Option.isSome_iff_exists.mp proper
  obtain ⟨l, found, linked⟩ := chained.found there
  have loop := chained.dlinkFind_spec there data
  rw [dlinkFind, found] at loop
  change findLoop data mem addresses l.head = _ at loop
  have returns : (DlinkOp.dlinkFindDelete data list).returns s = nodes.find? (s.data · = data) := by
    rw [DlinkOp.returns, there]
    rfl
  rw [Follows, returns]
  cases searched : nodes.find? (s.data · = data) with
  | none =>
    rw [searched] at loop
    have unchanged : (DlinkOp.dlinkFindDelete data list).apply s = s := by
      have whole : nodes.eraseP (s.data · = data) = nodes := by
        apply List.eraseP_of_forall_not
        simpa using List.find?_eq_none.mp searched
      rw [DlinkOp.apply, Sequences.change, there, Option.map_some, whole, ← there, Function.update_eq_self]
    rw [unchanged]
    refine ⟨mem, ?_, chained, counted, fun _ _ => ⟨rfl, fun _ _ _ _ => rfl⟩⟩
    simp only [DlinkOp.run, dlinkFindDelete, found, loop, bind, Option.bind_some]
  | some m =>
    rw [searched] at loop
    obtain ⟨here, left, right, rfl, before⟩ := List.find?_eq_some_iff_append.mp searched
    obtain ⟨mem', ran, relinked⟩ := dlinkFindDelete_spec found linked loop
    refine ⟨mem', ran, taken chained counted there found relinked ?_ ?_⟩
    · intro k member
      rcases List.mem_cons.mp member with rfl | other
      · simp
      · exact ((List.sublist_cons_self m right).append_left left).subset other
    · exact eraseP_append (fun k member => by simpa using before k member) here

theorem follows_dlinkMove {m oldlist newlist : Address}
    (proper : (DlinkOp.dlinkMove m oldlist newlist).Proper start s) :
    Follows start mem s (.dlinkMove m oldlist newlist) := by
  obtain ⟨⟨nodes, there, member⟩, some_⟩ := proper
  obtain ⟨left, right, -, rfl, erased⟩ := List.exists_erase_eq member
  obtain ⟨l, found, linked⟩ := chained.found there
  have part : ∀ k ∈ left ++ right, k ∈ left ++ m :: right := fun k member =>
    ((List.sublist_cons_self m right).append_left left).subset member
  obtain ⟨mem₁, relinked₁, rest⟩ := dlinkMove_spec newlist found linked
  have inside : ∀ k ∈ left ++ right, k ∈ left ++ m :: right ∨ s.Free k := fun k member => .inl (part k member)
  have chained₁ : Chained start mem₁ (s.change oldlist (·.erase m)) :=
    chained.relinked there relinked₁ inside inside (fun k member => chained.data _ _ there k (part k member)) erased
  have free₁ := chained.free_erase there member
  rw [← Sequences.isSome_change (·.erase m)] at some_
  obtain ⟨nodes₂, there₂⟩ := Option.isSome_iff_exists.mp some_
  obtain ⟨l₂, found₂, linked₂⟩ := chained₁.found there₂
  obtain ⟨mem₂, mem', relinked₂, ran, sameNodes, lengths⟩ :=
    rest l₂ nodes₂ found₂ linked₂ (free₁ newlist nodes₂ there₂)
  have own : ∀ k ∈ m :: nodes₂, k ∈ nodes₂ ∨ (s.change oldlist (·.erase m)).Free k := by
    intro k member
    rcases List.mem_cons.mp member with rfl | before
    · exact .inr free₁
    · exact .inl before
  have stored : ∀ k ∈ m :: nodes₂, mem₁.data k = some ((s.change oldlist (·.erase m)).data k) := by
    intro k inFront
    rcases List.mem_cons.mp inFront with rfl | before
    · rw [relinked₁.data]
      exact chained.data _ _ there k member
    · exact chained₁.data newlist nodes₂ there₂ k before
  have chained₂ : Chained start mem₂ ((DlinkOp.dlinkMove m oldlist newlist).apply s) :=
    chained₁.relinked there₂ relinked₂ own own stored rfl
  -- the counter of the old list is ahead by one until the end, that of the new one behind
  have counted₁ : CountedBy (fun k length => length - if k = oldlist then 1 else 0) mem₁
      (s.change oldlist (·.erase m)) := by
    refine counted.countedBy.change relinked₁.lists there (fun other different length => ?_) ?_
    · rw [if_neg different, UInt64.sub_zero]
    · have fewer := counted_erase (counted oldlist l _ found there)
      rw [erased, if_pos rfl]
      exact fewer
  let count (k : Address) (length : UInt64) : UInt64 :=
    length - (if k = oldlist then 1 else 0) + (if k = newlist then 1 else 0)
  have counted₂ : CountedBy count mem₂ ((DlinkOp.dlinkMove m oldlist newlist).apply s) := by
    refine counted₁.change relinked₂.lists there₂ (fun other different length => ?_) ?_
    · simp only [count, different, if_false, UInt64.add_zero]
    · have bound := length_lt_of_nodup relinked₂.linked.nodup
      simp only [count, if_true]
      exact (counted₁ newlist l₂ nodes₂ found₂ there₂).add _ rfl bound
  refine ⟨mem', ?_, chained₂.lengths count sameNodes lengths, counted₂.lengths lengths, ?_⟩
  · rw [DlinkOp.run, ran]
    rfl
  · intro list outside
    simp only [DlinkOp.passed, List.mem_cons, List.not_mem_nil, or_false, not_or] at outside
    obtain ⟨notOld, notNew⟩ := outside
    have first := chained.unchanged there relinked₁ inside list (by simpa using notOld)
    have second := chained₁.unchanged there₂ relinked₂ own list (by simpa using notNew)
    constructor
    · rw [lengths list, second.1, first.1]
      simp only [notOld, notNew, if_false, UInt64.sub_zero, UInt64.add_zero, Option.map_id']
    · intro others listed k member
      have listed₁ : (s.change oldlist (·.erase m)).lists list = some others := by
        rwa [Sequences.change_of_ne notOld]
      rw [sameNodes, second.2 others listed₁ k member, first.2 others listed k member]

/-- Every proper call does to the sequences what its name says. -/
theorem follows {op : DlinkOp} (proper : op.Proper start s) : Follows start mem s op := by
  cases op with
  | dlinkAdd data m list => exact follows_dlinkAdd chained counted proper
  | dlinkAddBefore b data m list => exact follows_dlinkAddBefore chained counted proper
  | dlinkAddTail data m list => exact follows_dlinkAddTail chained counted proper
  | dlinkDelete m list => exact follows_dlinkDelete chained counted proper
  | dlinkFindDelete data list => exact follows_dlinkFindDelete chained counted proper
  | dlinkMove m oldlist newlist => exact follows_dlinkMove chained counted proper

end Calls

/-! ## Histories -/

/-- All lists are empty. -/
def Memory.Empty (start : Memory) : Prop :=
  ∀ list l, start.lists list = some l → l = {}

theorem Memory.Empty.chained {start : Memory} (empty : start.Empty) :
    Chained start start (Sequences.empty start) ∧ Counted start (Sequences.empty start) := by
  have nothing {list : Address} {nodes : List Address} (listed : (Sequences.empty start).lists list = some nodes) :
      nodes = [] := by
    obtain ⟨l, -, same⟩ := Option.map_eq_some_iff.mp listed
    exact same.symm
  refine ⟨⟨fun k => Option.isSome_map, fun list => Option.isSome_map.symm, ?_, ?_, ?_⟩, ?_⟩
  · intro list l nodes found listed
    obtain rfl := nothing listed
    rw [empty list l found]
    exact Linked.empty _
  · intro first second left right _ listed _
    rw [nothing listed]
    exact List.disjoint_nil_left _
  · intro list nodes listed k member
    rw [nothing listed] at member
    contradiction
  · intro list l nodes found listed
    obtain rfl := nothing listed
    rw [empty list l found]
    rfl

/-- Every set of lists that was built from empty ones by proper calls is a set of sequences, and so is what any further
proper call leaves: it changes the sequences of the lists it is passed as its name says, and no others. -/
theorem dlink_lists_are_sequences {start : Memory} (empty : start.Empty) {ops : List DlinkOp} {s : Sequences}
    (run : Machine.Run (DlinkOp.Step start) (Sequences.empty start) ops s) :
    ∃ mem, ops.foldlM (fun mem op => (DlinkOp.run mem op).map Prod.snd) start = some mem ∧ Shows mem s ∧
      ∀ op : DlinkOp, op.Proper start s → ∃ mem', op.run mem = some (op.returns s, mem') ∧ Shows mem' (op.apply s) ∧
        Unchanged mem mem' s op.passed := by
  have reached : ∃ mem, ops.foldlM (fun mem op => (DlinkOp.run mem op).map Prod.snd) start = some mem ∧
      Chained start mem s ∧ Counted mem s := by
    induction run with
    | start => exact ⟨start, rfl, empty.chained⟩
    | snoc run last ih =>
      obtain ⟨mem, ran, chained, counted⟩ := ih
      obtain ⟨proper, rfl⟩ := last
      obtain ⟨mem', next, chained', counted', -⟩ := follows chained counted proper
      refine ⟨mem', ?_, chained', counted'⟩
      rw [List.foldlM_append, ran]
      simp only [List.foldlM_cons, List.foldlM_nil, bind, Option.bind_some, next, Option.map_some, pure]
  obtain ⟨mem, ran, chained, counted⟩ := reached
  refine ⟨mem, ran, chained.shows counted, fun op proper => ?_⟩
  obtain ⟨mem', next, chained', counted', unchanged⟩ := follows chained counted proper
  exact ⟨mem', next, chained'.shows counted', unchanged⟩

/-- Two empty lists at 1 and 2, and a node at 3. -/
def twoLists : Memory where
  nodes k := if k.1 = 3 then some {} else none
  lists k := if k.1 = 1 ∨ k.1 = 2 then some {} else none

theorem twoLists_empty : twoLists.Empty := by
  intro list l found
  obtain ⟨-, same⟩ := Option.ite_none_right_eq_some.mp found
  exact (Option.some.inj same).symm

/-- A node that is put in one list and moved to the other. -/
theorem dlink_lists_are_sequences_moved :
    let first : Address := ⟨1, by decide⟩
    let second : Address := ⟨2, by decide⟩
    let m : Address := ⟨3, by decide⟩
    let ops := [DlinkOp.dlinkAdd 7 m first, .dlinkMove m first second]
    let s := ops.foldl DlinkOp.apply (Sequences.empty twoLists)
    s.lists first = some [] ∧ s.lists second = some [m] ∧
      ∃ mem, ops.foldlM (fun mem op => (DlinkOp.run mem op).map Prod.snd) twoLists = some mem ∧ Shows mem s ∧
        ∀ op : DlinkOp, op.Proper twoLists s → ∃ mem', op.run mem = some (op.returns s, mem') ∧
          Shows mem' (op.apply s) ∧ Unchanged mem mem' s op.passed := by
  intro first second m ops s
  refine ⟨by decide, by decide, dlink_lists_are_sequences twoLists_empty ?_⟩
  have free : (Sequences.empty twoLists).Free m := by
    intro list nodes listed
    obtain ⟨l, -, rfl⟩ := Option.map_eq_some_iff.mp listed
    exact List.not_mem_nil
  have put : DlinkOp.Step twoLists (Sequences.empty twoLists) (.dlinkAdd 7 m first) _ :=
    ⟨⟨by decide, free, by decide⟩, rfl⟩
  have moved : DlinkOp.Step twoLists (DlinkOp.apply _ (.dlinkAdd 7 m first)) (.dlinkMove m first second) s :=
    ⟨⟨⟨[m], by decide, List.mem_singleton_self m⟩, by decide⟩, rfl⟩
  exact (Machine.Run.start.snoc put).snoc moved

end FsPkg.DlinkMemory
