import FsPkg.Model.FuseLowlevel
import Mathlib.Data.List.Find

/-! # The rings of requests

Of a memory two things count: its links, and what the records hold besides. The functions on rings change links only,
and those on records leave the links alone; each is told once by what it does to the two.
-/

namespace FsPkg.Fuse

open Machine

variable {mem mem' : Mem} {req head m : ReqPtr} {nodes left right : List ReqPtr}

/-- What a record holds, besides its links. -/
structure Data where
  unique : UInt64
  ctr : ℤ
  interrupted : Bool
  intr : UInt64

namespace Mem

def data (mem : Mem) (req : ReqPtr) : Option Data :=
  (mem req).map fun r => ⟨r.unique, r.ctr, r.interrupted, r.intr⟩

theorem isSome_data : (mem.data req).isSome = (mem req).isSome := Option.isSome_map

theorem isSome_links : (mem.links req).isSome = (mem req).isSome := Option.isSome_map

theorem of_data {d : Data} (found : mem.data req = some d) :
    ∃ r, mem req = some r ∧ r.unique = d.unique ∧ r.ctr = d.ctr ∧ r.interrupted = d.interrupted ∧ r.intr = d.intr := by
  obtain ⟨r, there, rfl⟩ := Option.map_eq_some_iff.mp found
  exact ⟨r, there, rfl, rfl, rfl, rfl⟩

/-- The links and the rest make up a memory. -/
theorem ext_links_data (links : mem.links = mem'.links) (data : mem.data = mem'.data) : mem = mem' := by
  funext k
  have linked := congrFun links k
  have same := congrFun data k
  unfold Mem.links at linked
  unfold Mem.data at same
  cases first : mem k with
  | none =>
    rw [first] at same
    exact (Option.map_eq_none_iff.mp same.symm).symm
  | some r =>
    obtain ⟨r', second, fields⟩ := Option.map_eq_some_iff.mp (same.symm.trans (by rw [first]; rfl))
    rw [first, second] at linked
    rw [second]
    cases r
    cases r'
    simp_all

/-- What a change of one record does, if the record is there. -/
theorem modify_eq (alive : (mem req).isSome) (change : FuseReq → FuseReq) :
    ∃ r, mem req = some r ∧ mem.modify req change = some (Function.update mem req (some (change r))) := by
  obtain ⟨r, found⟩ := Option.isSome_iff_exists.mp alive
  exact ⟨r, found, by rw [Mem.modify, found]; rfl⟩

theorem links_update (r : FuseReq) :
    links (Function.update mem req (some r)) = Function.update mem.links req (some ⟨some r.next, some r.prev⟩) := by
  funext k
  rcases eq_or_ne k req with rfl | other
  · simp [Mem.links]
  · simp [Mem.links, other]

theorem data_update (r : FuseReq) : data (Function.update mem req (some r)) =
    Function.update mem.data req (some ⟨r.unique, r.ctr, r.interrupted, r.intr⟩) := by
  funext k
  rcases eq_or_ne k req with rfl | other
  · simp [Mem.data]
  · simp [Mem.data, other]

theorem setNext_spec (alive : (mem req).isSome) (next : ReqPtr) :
    ∃ mem', mem.setNext req next = some mem' ∧ mem'.links = mem.links.setNext (some req) (some next) ∧
      mem'.data = mem.data := by
  obtain ⟨r, found, set⟩ := modify_eq alive fun r => { r with next }
  refine ⟨_, set, ?_, ?_⟩
  · rw [links_update]
    simp [Links.setNext, Mem.links, found]
  · rw [data_update, Function.update_eq_self_iff]
    simp [Mem.data, found]

theorem setPrev_spec (alive : (mem req).isSome) (prev : ReqPtr) :
    ∃ mem', mem.setPrev req prev = some mem' ∧ mem'.links = mem.links.setPrev (some req) (some prev) ∧
      mem'.data = mem.data := by
  obtain ⟨r, found, set⟩ := modify_eq alive fun r => { r with prev }
  refine ⟨_, set, ?_, ?_⟩
  · rw [links_update]
    simp [Links.setPrev, Mem.links, found]
  · rw [data_update, Function.update_eq_self_iff]
    simp [Mem.data, found]

theorem isSome_of_ring (ring : Ring mem.links head nodes) {k : ReqPtr} (member : k ∈ head :: nodes) :
    (mem k).isSome := by
  obtain ⟨link, found⟩ := ring.isSome member
  rw [← isSome_links, found]
  rfl

theorem isSome_congr (data : mem'.data = mem.data) (k : ReqPtr) : (mem' k).isSome = (mem k).isSome := by
  rw [← isSome_data, data, isSome_data]

end Mem

/-- The neighbours in a ring, as pointers. -/
theorem neighbours (ring : Ring mem.links head (left ++ m :: right)) :
    ∃ r, mem m = some r ∧ some r.next = right.head?.or (some head) ∧ some r.prev = (head :: left).getLast? := by
  obtain ⟨r, found, same⟩ := Option.map_eq_some_iff.mp ring.link
  rw [Link.mk.injEq] at same
  exact ⟨r, found, same⟩

theorem next_mem {next : ReqPtr} (same : some next = right.head?.or (some head)) : next = head ∨ next ∈ right := by
  cases right with
  | nil => exact .inl (Option.some.inj same)
  | cons k right => exact .inr (Option.some.inj same ▸ List.mem_cons_self)

theorem prev_mem {prev : ReqPtr} (same : some prev = (head :: left).getLast?) : prev ∈ head :: left :=
  List.mem_of_getLast? same.symm

/-- `list_del_req` of a record in a ring. -/
theorem listDelReq_spec (ring : Ring mem.links head (left ++ m :: right)) :
    ∃ mem', listDelReq mem m = some mem' ∧ mem'.data = mem.data ∧ Ring mem'.links head (left ++ right) ∧
      ∀ k ∉ head :: (left ++ right), mem'.links k = mem.links k := by
  obtain ⟨r, found, next, prev⟩ := neighbours ring
  have before := prev_mem prev
  have after := next_mem next
  have alivePrev : (mem r.prev).isSome := by
    have among : r.prev ∈ head :: left ++ m :: right := List.mem_append_left (m :: right) before
    exact Mem.isSome_of_ring ring among
  obtain ⟨mem₁, set₁, links₁, data₁⟩ := Mem.setNext_spec alivePrev r.next
  have aliveNext : (mem₁ r.next).isSome := by
    rw [Mem.isSome_congr data₁]
    apply Mem.isSome_of_ring ring
    rcases after with same | member
    · rw [same]
      exact List.mem_cons_self
    · exact List.mem_cons_of_mem _ (List.mem_append_right _ (List.mem_cons_of_mem _ member))
  obtain ⟨mem₂, set₂, links₂, data₂⟩ := Mem.setPrev_spec aliveNext r.prev
  refine ⟨mem₂, ?_, data₂.trans data₁, ?_, ?_⟩
  · simp only [listDelReq, found, set₁, set₂, bind, Option.bind_some]
  · rw [links₂, links₁, next, prev]
    exact ring.unlink
  · intro k outside
    rw [links₂, links₁]
    have notNext : some r.next ≠ some k := by
      rintro ⟨⟩
      apply outside
      rcases after with same | member
      · rw [same]
        exact List.mem_cons_self
      · exact List.mem_cons_of_mem _ (List.mem_append_right _ member)
    have notPrev : some r.prev ≠ some k := by
      rintro ⟨⟩
      have among : r.prev ∈ head :: left ++ right := List.mem_append_left right before
      exact outside among
    rw [Links.setPrev_of_ne _ notNext, Links.setNext_of_ne _ notPrev]

/-- `list_del_req` of a record by itself. -/
theorem listDelReq_single (ring : Ring mem.links m []) : listDelReq mem m = some mem := by
  obtain ⟨r, found, same⟩ := Option.map_eq_some_iff.mp ring.link_head
  obtain ⟨next, prev⟩ := Link.mk.inj same
  have alive : (mem m).isSome := by rw [found]; rfl
  obtain rfl : r.next = m := Option.some.inj next
  have back : r.prev = r.next := Option.some.inj prev
  obtain ⟨mem₁, set₁, links₁, data₁⟩ := Mem.setNext_spec alive r.next
  have alive₁ : (mem₁ r.next).isSome := by rwa [Mem.isSome_congr data₁]
  obtain ⟨mem₂, set₂, links₂, data₂⟩ := Mem.setPrev_spec alive₁ r.next
  have unchanged : mem₂ = mem := by
    apply Mem.ext_links_data _ (data₂.trans data₁)
    rw [links₂, links₁]
    exact ring.unlink_single
  simp only [listDelReq, found, back, set₁, set₂, bind, Option.bind_some, unchanged]

/-- `list_add_req` of a record that is there, before the head of a ring. -/
theorem listAddReq_spec (ring : Ring mem.links head nodes) (alive : (mem m).isSome) (fresh : m ∉ head :: nodes) :
    ∃ mem', listAddReq mem m head = some mem' ∧ mem'.data = mem.data ∧ Ring mem'.links head (nodes ++ [m]) ∧
      ∀ k ∉ m :: head :: nodes, mem'.links k = mem.links k := by
  obtain ⟨h, found, same⟩ := Option.map_eq_some_iff.mp ring.link_head
  obtain ⟨-, prev⟩ := Link.mk.inj same
  have behind : h.prev ∈ head :: nodes := List.mem_of_getLast? prev.symm
  obtain ⟨mem₁, set₁, links₁, data₁⟩ := Mem.setNext_spec alive head
  have alive₁ : (mem₁ m).isSome := by rwa [Mem.isSome_congr data₁]
  obtain ⟨mem₂, set₂, links₂, data₂⟩ := Mem.setPrev_spec alive₁ h.prev
  have kept (k : ReqPtr) : (mem₂ k).isSome = (mem k).isSome := by rw [Mem.isSome_congr data₂, Mem.isSome_congr data₁]
  have alive₂ : (mem₂ h.prev).isSome := by
    rw [kept]
    exact Mem.isSome_of_ring ring behind
  obtain ⟨mem₃, set₃, links₃, data₃⟩ := Mem.setNext_spec alive₂ m
  have alive₃ : (mem₃ head).isSome := by
    rw [Mem.isSome_congr data₃, kept]
    exact Mem.isSome_of_ring ring List.mem_cons_self
  obtain ⟨mem₄, set₄, links₄, data₄⟩ := Mem.setPrev_spec alive₃ m
  have placed : mem₂.links = Function.update mem.links m (some ⟨some head, some h.prev⟩) := by
    obtain ⟨r, there⟩ := Option.isSome_iff_exists.mp alive
    rw [links₂, links₁]
    simp [Links.setNext, Links.setPrev, Mem.links, there]
  refine ⟨mem₄, ?_, data₄.trans (data₃.trans (data₂.trans data₁)), ?_, ?_⟩
  · simp only [listAddReq, found, set₁, set₂, set₃, set₄, bind, Option.bind_some]
  · rw [links₄, links₃, placed, prev]
    exact ring.pushBack fresh
  · intro k outside
    simp only [List.mem_cons, not_or] at outside
    rw [links₄, links₃, placed, Links.setPrev_of_ne, Links.setNext_of_ne, Function.update_of_ne outside.1]
    · rintro ⟨⟩
      exact (List.mem_cons.mp behind).elim outside.2.1 outside.2.2
    · rintro ⟨⟩
      exact outside.2.1 rfl

/-- `list_init_req` of a record that is there. -/
theorem listInitReq_spec (alive : (mem m).isSome) :
    ∃ mem', listInitReq mem m = some mem' ∧ mem'.data = mem.data ∧ Ring mem'.links m [] ∧
      ∀ k ≠ m, mem'.links k = mem.links k := by
  obtain ⟨mem₁, set₁, links₁, data₁⟩ := Mem.setNext_spec alive m
  have alive₁ : (mem₁ m).isSome := by rwa [Mem.isSome_congr data₁]
  obtain ⟨mem₂, set₂, links₂, data₂⟩ := Mem.setPrev_spec alive₁ m
  refine ⟨mem₂, ?_, data₂.trans data₁, ?_, ?_⟩
  · simp only [listInitReq, set₁, set₂, bind, Option.bind_some]
  · apply Ring.single
    obtain ⟨r, there⟩ := Option.isSome_iff_exists.mp alive
    rw [links₂, links₁]
    simp [Links.setNext, Links.setPrev, Mem.links, there]
  · intro k other
    have different : some m ≠ some k := fun same => other (Option.some.inj same).symm
    rw [links₂, links₁, Links.setPrev_of_ne _ different, Links.setNext_of_ne _ different]

/-- A change of what a record holds besides its links. -/
theorem modify_spec {d : Data} (found : mem.data req = some d) (change : FuseReq → FuseReq) (f : Data → Data)
    (next : ∀ r, (change r).next = r.next) (prev : ∀ r, (change r).prev = r.prev)
    (data : ∀ r, ⟨(change r).unique, (change r).ctr, (change r).interrupted, (change r).intr⟩ =
      f ⟨r.unique, r.ctr, r.interrupted, r.intr⟩) :
    ∃ mem', mem.modify req change = some mem' ∧ mem'.links = mem.links ∧
      mem'.data = Function.update mem.data req (some (f d)) := by
  obtain ⟨r, there, rfl⟩ := Option.map_eq_some_iff.mp found
  have alive : (mem req).isSome := by rw [there]; rfl
  obtain ⟨r', there', set⟩ := Mem.modify_eq alive change
  obtain rfl : r = r' := Option.some.inj (there.symm.trans there')
  refine ⟨_, set, ?_, ?_⟩
  · rw [Mem.links_update, Function.update_eq_self_iff, next, prev, Mem.links, there]
    rfl
  · rw [Mem.data_update, data]

/-- `destroy_req` of a record that is there. -/
theorem destroyReq_spec (alive : (mem req).isSome) :
    ∃ mem', destroyReq mem req = some mem' ∧ mem'.data = Function.update mem.data req none ∧
      ∀ k ≠ req, mem'.links k = mem.links k := by
  obtain ⟨r, there⟩ := Option.isSome_iff_exists.mp alive
  refine ⟨Function.update mem req none, by rw [destroyReq, there]; rfl, ?_, ?_⟩
  · funext k
    rcases eq_or_ne k req with rfl | other
    · simp [Mem.data]
    · simp [Mem.data, other]
  · intro k other
    simp [Mem.links, other]

/-- `--req->ctr`, and the end of the record if nobody has it any more. -/
theorem releaseReq_spec {d : Data} (found : mem.data req = some d) :
    ∃ mem', releaseReq mem req = some mem' ∧ (∀ k, k ≠ req ∨ d.ctr - 1 ≠ 0 → mem'.links k = mem.links k) ∧
      mem'.data =
        Function.update mem.data req (if d.ctr - 1 = 0 then none else some { d with ctr := d.ctr - 1 }) := by
  obtain ⟨mem₁, set₁, links₁, data₁⟩ := modify_spec found (fun r => { r with ctr := r.ctr - 1 })
    (fun d => { d with ctr := d.ctr - 1 }) (fun _ => rfl) (fun _ => rfl) fun _ => rfl
  have found₁ : mem₁.data req = some { d with ctr := d.ctr - 1 } := by rw [data₁, Function.update_self]
  obtain ⟨r, there, -, ctr, -, -⟩ := Mem.of_data found₁
  by_cases last : d.ctr - 1 = 0
  · have alive : (mem₁ req).isSome := by rw [there]; rfl
    obtain ⟨mem₂, set₂, data₂, links₂⟩ := destroyReq_spec alive
    refine ⟨mem₂, ?_, fun k other => ?_, ?_⟩
    · simp only [releaseReq, set₁, there, ctr, last, if_pos, set₂, bind, Option.bind_some]
    · rw [links₂ k (other.resolve_right (not_not_intro last)), links₁]
    · rw [data₂, data₁, Function.update_idem, if_pos last]
  · refine ⟨mem₁, ?_, fun k _ => by rw [links₁], ?_⟩
    · simp only [releaseReq, set₁, there, ctr, last, if_false, bind, Option.bind_some]
    · rw [data₁, if_neg last]

/-! ## The search -/

/-- The search goes through the rest of a ring. -/
theorem search_segment {wanted : FuseReq → Bool} {test : Data → Bool}
    (same : ∀ r : FuseReq, wanted r = test ⟨r.unique, r.ctr, r.interrupted, r.intr⟩)
    (segment : Segment mem.links (some m) nodes (some head)) (outside : head ∉ nodes) {curr : ReqPtr}
    (first : some curr = nodes.head?.or (some head)) {fuel : ℕ} (enough : nodes.length < fuel) :
    search mem head wanted fuel curr = some (nodes.find? fun k => (mem.data k).any test) := by
  induction nodes generalizing m fuel curr with
  | nil =>
    obtain ⟨fuel, rfl⟩ := Nat.exists_eq_succ_of_ne_zero (by omega : fuel ≠ 0)
    rw [search, if_pos (Option.some.inj first)]
    rfl
  | cons k nodes ih =>
    obtain ⟨fuel, rfl⟩ := Nat.exists_eq_succ_of_ne_zero (by omega : fuel ≠ 0)
    obtain rfl : curr = k := Option.some.inj first
    obtain ⟨other, outside⟩ := not_or.mp (fun member => outside (List.mem_cons.mpr member))
    obtain ⟨r, there, links⟩ := Option.map_eq_some_iff.mp segment.1
    obtain ⟨next, -⟩ := Link.mk.inj links
    have tested : (mem.data curr).any test = wanted r := by simp [Mem.data, there, same]
    rw [List.length_cons] at enough
    have later := ih segment.2 outside next (Nat.lt_of_succ_lt_succ enough)
    simp only [search, if_neg (Ne.symm other), there, List.find?_cons, tested, bind, Option.bind_some]
    cases wanted r
    · exact later
    · rfl

/-- The search through a whole ring. -/
theorem searchRing_spec (wanted : FuseReq → Bool) (test : Data → Bool)
    (same : ∀ r : FuseReq, wanted r = test ⟨r.unique, r.ctr, r.interrupted, r.intr⟩)
    (ring : Ring mem.links head nodes) {fuel : ℕ} (enough : nodes.length < fuel) :
    searchRing fuel mem head wanted = some (nodes.find? fun k => (mem.data k).any test) := by
  obtain ⟨h, there, links⟩ := Option.map_eq_some_iff.mp ring.link_head
  obtain ⟨next, -⟩ := Link.mk.inj links
  have searched := search_segment same ring.1.2 (List.nodup_cons.mp ring.2).1 next enough
  simp only [searchRing, there, bind, Option.bind_some, searched]

end FsPkg.Fuse
