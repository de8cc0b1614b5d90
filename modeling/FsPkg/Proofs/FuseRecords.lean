import FsPkg.Machine.RefCount
import FsPkg.Proofs.FuseRings

/-! # Who has which record

Every record is in one of the rings or with one thread, and an INTERRUPT may hold the request it is about besides. The
counter of a record says how many have it, and a record that nobody has is freed.
-/

namespace FsPkg.Fuse

open Machine

variable {mem mem' : Mem} {pending waiting own held held' left right : List ReqPtr} {m : ReqPtr} {n : ℤ} {d : Data}

namespace Mem

/-- The counters of the records that are allocated; the heads of the rings are not. -/
def counts (mem : Mem) : ReqPtr → Option ℤ
  | .req address => (mem.data (.req address)).map Data.ctr
  | .list | .interrupts => none

theorem data_of_counts (counted : mem.counts m = some n) : ∃ d, mem.data m = some d ∧ d.ctr = n := by
  cases m with
  | req address => exact Option.map_eq_some_iff.mp counted
  | list => cases counted
  | interrupts => cases counted

theorem counts_of_data (same : mem'.data = mem.data) : mem'.counts = mem.counts := by
  funext k
  cases k with
  | req address => rw [counts, same, counts]
  | list => rfl
  | interrupts => rfl

theorem counts_update {o : Option Data} {address : ℕ} (data : mem'.data = Function.update mem.data (.req address) o) :
    mem'.counts = Function.update mem.counts (.req address) (o.map Data.ctr) := by
  funext k
  cases k with
  | list => rfl
  | interrupts => rfl
  | req other =>
    rcases eq_or_ne other address with rfl | different
    · rw [counts, data, Function.update_self, Function.update_self]
    · have apart : ReqPtr.req other ≠ .req address := fun same => different (ReqPtr.req.inj same)
      rw [counts, data, Function.update_of_ne apart, Function.update_of_ne apart, counts]

theorem counts_set {o : Option Data} (counted : mem.counts m = some n)
    (data : mem'.data = Function.update mem.data m o) :
    mem'.counts = Function.update mem.counts m (o.map Data.ctr) := by
  cases m with
  | req address => exact counts_update data
  | list => cases counted
  | interrupts => cases counted

/-- A record that is still there is of the same message. -/
def Keeps (mem mem' : Mem) : Prop :=
  ∀ k d', mem'.data k = some d' → ∃ d, mem.data k = some d ∧ d.unique = d'.unique

namespace Keeps

variable {mem'' : Mem}

theorem trans (first : Keeps mem mem') (second : Keeps mem' mem'') : Keeps mem mem'' := by
  intro k d'' found
  obtain ⟨d', found', same'⟩ := second k d'' found
  obtain ⟨d, found, same⟩ := first k d' found'
  exact ⟨d, found, same.trans same'⟩

theorem of_data (same : mem'.data = mem.data) : Keeps mem mem' :=
  fun k d' found => ⟨d', by rwa [← same], rfl⟩

theorem of_none (data : mem'.data = Function.update mem.data m none) : Keeps mem mem' := by
  intro k d' found
  rcases eq_or_ne k m with rfl | other
  · rw [data, Function.update_self] at found
    cases found
  · rw [data, Function.update_of_ne other] at found
    exact ⟨d', found, rfl⟩

theorem of_some {d' : Data} (there : mem.data m = some d)
    (data : mem'.data = Function.update mem.data m (some d')) (same : d.unique = d'.unique) : Keeps mem mem' := by
  intro k d'' found
  rcases eq_or_ne k m with rfl | other
  · rw [data, Function.update_self] at found
    exact ⟨d, there, by rw [same, Option.some.inj found]⟩
  · rw [data, Function.update_of_ne other] at found
    exact ⟨d'', found, rfl⟩

end Keeps

end Mem

/-- The requests and INTERRUPT messages in the rings, the records that threads have by themselves, and those that are
held besides. -/
structure Records (mem : Mem) (pending waiting own held : List ReqPtr) : Prop where
  list : Ring mem.links .list pending
  interrupts : Ring mem.links .interrupts waiting
  alone : ∀ m ∈ own, Ring mem.links m []
  nodup : (pending ++ (waiting ++ own)).Nodup
  apart : ∀ m ∈ held, m ∉ waiting ++ own
  counted : Counted mem.counts (pending ++ (waiting ++ own) ++ held)

namespace Records

/-- No head of a ring is a record that somebody has. -/
theorem address_of_mem (records : Records mem pending waiting own held)
    (member : m ∈ pending ++ (waiting ++ own) ++ held) : ∃ address, m = .req address := by
  obtain ⟨n, counted⟩ := Option.isSome_iff_exists.mp (records.counted.isSome_iff.mpr member)
  cases m with
  | req address => exact ⟨address, rfl⟩
  | list => cases counted
  | interrupts => cases counted

theorem list_notMem (records : Records mem pending waiting own held) :
    ReqPtr.list ∉ pending ++ (waiting ++ own) ++ held := by
  intro member
  obtain ⟨address, same⟩ := records.address_of_mem member
  cases same

theorem interrupts_notMem (records : Records mem pending waiting own held) :
    ReqPtr.interrupts ∉ pending ++ (waiting ++ own) ++ held := by
  intro member
  obtain ⟨address, same⟩ := records.address_of_mem member
  cases same

theorem data_of_mem (records : Records mem pending waiting own held)
    (member : m ∈ pending ++ (waiting ++ own) ++ held) :
    ∃ d, mem.data m = some d ∧ mem.counts m = some d.ctr := by
  obtain ⟨n, counted⟩ := Option.isSome_iff_exists.mp (records.counted.isSome_iff.mpr member)
  obtain ⟨d, found, rfl⟩ := Mem.data_of_counts counted
  exact ⟨d, found, counted⟩

/-- The order in which threads have their records does not matter. -/
theorem perm {own' : List ReqPtr} (records : Records mem pending waiting own held) (owned : own.Perm own')
    (holds : held.Perm held') : Records mem pending waiting own' held' where
  list := records.list
  interrupts := records.interrupts
  alone m member := records.alone m (owned.mem_iff.mpr member)
  nodup := ((owned.append_left waiting).append_left pending).nodup_iff.mp records.nodup
  apart m member := by
    rw [← (owned.append_left waiting).mem_iff]
    exact records.apart m (holds.mem_iff.mpr member)
  counted := records.counted.perm (((owned.append_left waiting).append_left pending).append holds)

/-- A step that leaves the rings and who is in them alone. -/
theorem frame (records : Records mem pending waiting own held)
    (links : ∀ k, k ∉ held ∨ k ∈ pending ++ (waiting ++ own) → mem'.links k = mem.links k)
    (apart : ∀ m ∈ held', m ∉ waiting ++ own)
    (counted : Counted mem'.counts (pending ++ (waiting ++ own) ++ held')) : Records mem' pending waiting own held' where
  list := by
    apply records.list.congr
    intro k member
    apply links
    rcases List.mem_cons.mp member with rfl | member
    · exact .inl fun held => records.list_notMem (List.mem_append_right _ held)
    · exact .inr (List.mem_append_left _ member)
  interrupts := by
    apply records.interrupts.congr
    intro k member
    apply links
    rcases List.mem_cons.mp member with rfl | member
    · exact .inl fun held => records.interrupts_notMem (List.mem_append_right _ held)
    · exact .inr (List.mem_append_right _ (List.mem_append_left _ member))
  alone m member := by
    apply (records.alone m member).congr
    intro k same
    obtain rfl := List.mem_singleton.mp same
    exact links k (.inr (List.mem_append_right _ (List.mem_append_right _ member)))
  nodup := records.nodup
  apart := apart
  counted := counted

/-! ## Records that a thread has by itself -/

theorem owned_perm : (pending ++ (waiting ++ m :: own) ++ held).Perm (m :: (pending ++ (waiting ++ own) ++ held)) := by
  simp only [List.append_assoc, List.cons_append]
  exact (List.perm_middle.append_left pending).trans List.perm_middle

theorem own_notMem (records : Records mem pending waiting (m :: own) held) :
    m ∉ pending ++ (waiting ++ own) ++ held := by
  have nodup := records.nodup
  have held := fun member => (records.apart m member) (List.mem_append_right _ List.mem_cons_self)
  simp only [List.nodup_append, List.nodup_cons, List.mem_append, List.mem_cons] at nodup
  obtain ⟨-, ⟨-, ⟨fresh, -⟩, apart⟩, others⟩ := nodup
  simp only [List.mem_append, not_or]
  exact ⟨⟨fun member => others m member m (.inr (.inl rfl)) rfl, fun member => apart m member m (.inl rfl) rfl, fresh⟩,
    held⟩

/-- What a thread has by itself, nobody else has. -/
theorem own_data (records : Records mem pending waiting (m :: own) held) :
    ∃ d, mem.data m = some d ∧ d.ctr = 1 := by
  exact Mem.data_of_counts ((records.counted.perm owned_perm).alone records.own_notMem)

/-- A new record. -/
theorem new (records : Records mem pending waiting own held) {address : ℕ} (fresh : mem (.req address) = none)
    (unique : UInt64) :
    Records (Function.update mem (.req address)
        (some { unique, ctr := 1, next := .req address, prev := .req address })) pending waiting (.req address :: own)
      held := by
  have uncounted : mem.counts (.req address) = none := by rw [Mem.counts, Mem.data, fresh]; rfl
  have nobody := records.counted.eq_none_iff.mp uncounted
  have other {k : ReqPtr} (member : k ∈ .list :: .interrupts :: (pending ++ (waiting ++ own) ++ held)) :
      k ≠ .req address := by
    rintro rfl
    simp only [List.mem_cons, reduceCtorEq, false_or] at member
    exact nobody member
  have links {k : ReqPtr} (member : k ∈ .list :: .interrupts :: (pending ++ (waiting ++ own) ++ held)) :
      Mem.links (Function.update mem (.req address)
        (some { unique, ctr := 1, next := .req address, prev := .req address })) k = mem.links k := by
    rw [Mem.links_update, Function.update_of_ne (other member)]
  simp only [List.mem_append, not_or] at nobody
  refine ⟨records.list.congr fun k member => links ?_, records.interrupts.congr fun k member => links ?_, ?_, ?_, ?_, ?_⟩
  · grind
  · grind
  · intro m member
    rcases List.mem_cons.mp member with rfl | member
    · apply Ring.single
      rw [Mem.links_update, Function.update_self]
    · apply (records.alone m member).congr
      intro k same
      apply links
      grind
  · have nodup := List.nodup_cons.mpr ⟨by simpa using nobody.1, records.nodup⟩
    apply (List.Perm.nodup_iff _).mpr nodup
    have same := @owned_perm pending waiting own [] (.req address)
    rwa [List.append_nil, List.append_nil] at same
  · intro m member
    have kept := records.apart m member
    have different := other (k := m) (by grind)
    grind
  · have counted := records.counted.new uncounted
    rw [Mem.counts_update (Mem.data_update _)]
    exact counted.perm owned_perm.symm

/-- A record that a thread had by itself is gone. -/
theorem drop (records : Records mem pending waiting (m :: own) held)
    (links : ∀ k ≠ m, mem'.links k = mem.links k) (data : mem'.data = Function.update mem.data m none) :
    Records mem' pending waiting own held := by
  have nobody := records.own_notMem
  have counted := records.counted.perm owned_perm
  obtain ⟨n, found, dropped⟩ := counted.drop
  have single : n = 1 := Option.some.inj (found.symm.trans (counted.alone nobody))
  have other {k : ReqPtr} (member : k ∈ .list :: .interrupts :: (pending ++ (waiting ++ own) ++ held)) : k ≠ m := by
    obtain ⟨address, rfl⟩ := records.address_of_mem (owned_perm.mem_iff.mpr List.mem_cons_self)
    rintro rfl
    simp only [List.mem_cons, reduceCtorEq, false_or] at member
    exact nobody member
  refine ⟨records.list.congr fun k member => links k (other ?_),
    records.interrupts.congr fun k member => links k (other ?_), ?_, ?_, ?_, ?_⟩
  · grind
  · grind
  · intro k member
    apply (records.alone k (List.mem_cons_of_mem m member)).congr
    intro k' same
    apply links
    apply other
    grind
  · exact records.nodup.sublist
      (List.Sublist.append_left (List.Sublist.append_left (List.sublist_cons_self m own) waiting) pending)
  · intro k member kept
    exact records.apart k member (by grind)
  · rw [Mem.counts_set found data]
    simpa [single] using dropped

/-- `destroy_req` of an INTERRUPT. -/
theorem destroy (records : Records mem pending waiting (m :: own) held) :
    ∃ mem', destroyReq mem m = some mem' ∧ Records mem' pending waiting own held ∧ Mem.Keeps mem mem' := by
  obtain ⟨d, found, -⟩ := records.own_data
  obtain ⟨mem', set, data, links⟩ := destroyReq_spec (by rw [← Mem.isSome_data, found]; rfl)
  exact ⟨mem', set, records.drop links data, .of_none data⟩

/-- `free_req` of a record that was never in a ring, or was taken out. -/
theorem freeOwn (records : Records mem pending waiting (m :: own) held) :
    ∃ mem', freeReq mem m = some mem' ∧ Records mem' pending waiting own held ∧ Mem.Keeps mem mem' := by
  obtain ⟨d, found, once⟩ := records.own_data
  obtain ⟨mem₁, set₁, links₁, data₁⟩ := modify_spec found (fun r => { r with intr := 0 }) (fun d => { d with intr := 0 })
    (fun _ => rfl) (fun _ => rfl) fun _ => rfl
  have found₁ : mem₁.data m = some { d with intr := 0 } := by rw [data₁, Function.update_self]
  have single : Ring mem₁.links m [] := by
    rw [links₁]
    exact records.alone m List.mem_cons_self
  obtain ⟨mem₂, set₂, links₂, data₂⟩ := releaseReq_spec found₁
  have gone : mem₂.data = Function.update mem.data m none := by
    rw [data₂, data₁, Function.update_idem, if_pos]
    change d.ctr - 1 = 0
    omega
  refine ⟨mem₂, ?_, records.drop (fun k other => ?_) gone, .of_none gone⟩
  · simp only [freeReq, set₁, listDelReq_single single, set₂, bind, Option.bind_some]
  · rw [links₂ k (.inl other), links₁]

/-! ## Requests that wait for an answer -/

theorem pending_perm : (left ++ m :: right ++ (waiting ++ own) ++ held).Perm
    (m :: (left ++ right ++ (waiting ++ own) ++ held)) := by
  simp only [List.append_assoc, List.cons_append]
  exact List.perm_middle

theorem pending_notMem (records : Records mem (left ++ m :: right) waiting own held) :
    m ∉ left ++ right ++ (waiting ++ own) := by
  have same := @pending_perm waiting own [] left right m
  rw [List.append_nil, List.append_nil] at same
  exact (List.nodup_cons.mp (same.nodup_iff.mp records.nodup)).1

/-- `free_req` of a request that was answered: it is gone unless an INTERRUPT holds it. -/
theorem freePending (records : Records mem (left ++ m :: right) waiting own held) :
    ∃ mem', freeReq mem m = some mem' ∧ Records mem' (left ++ right) waiting own held ∧ Mem.Keeps mem mem' := by
  have nobody := records.pending_notMem
  have counted := records.counted.perm pending_perm
  obtain ⟨n, there, dropped⟩ := counted.drop
  obtain ⟨d, found, rfl⟩ := Mem.data_of_counts there
  obtain ⟨mem₁, set₁, links₁, data₁⟩ := modify_spec found (fun r => { r with intr := 0 }) (fun d => { d with intr := 0 })
    (fun _ => rfl) (fun _ => rfl) fun _ => rfl
  have ring : Ring mem₁.links .list (left ++ m :: right) := by rw [links₁]; exact records.list
  obtain ⟨mem₂, set₂, data₂, ring₂, links₂⟩ := listDelReq_spec ring
  have found₂ : mem₂.data m = some { d with intr := 0 } := by rw [data₂, data₁, Function.update_self]
  obtain ⟨mem₃, set₃, links₃, data₃⟩ := releaseReq_spec found₂
  have head := records.list_notMem
  have head' := records.interrupts_notMem
  have nodup := records.nodup
  have links {k : ReqPtr} (other : k ≠ m) (outside : k ∉ .list :: (left ++ right)) : mem₃.links k = mem.links k := by
    rw [links₃ k (.inl other), links₂ k outside, links₁]
  refine ⟨mem₃, by simp only [freeReq, set₁, set₂, set₃, bind, Option.bind_some], ⟨?_, ?_, ?_, ?_, ?_, ?_⟩, ?_⟩
  · apply ring₂.congr
    intro k member
    apply links₃ k (.inl _)
    rintro rfl
    grind
  · apply records.interrupts.congr
    intro k member
    exact links (by rintro rfl; grind) (by grind)
  · intro k member
    apply (records.alone k member).congr
    intro k' same
    exact links (by grind) (by grind)
  · exact records.nodup.sublist (List.Sublist.append_right (List.Sublist.append_left (List.sublist_cons_self m right) left) _)
  · exact records.apart
  · have data : mem₃.data = Function.update mem.data m
        (if d.ctr - 1 = 0 then none else some { d with intr := 0, ctr := d.ctr - 1 }) := by
      rw [data₃, data₂, data₁, Function.update_idem]
    rw [Mem.counts_set there data, apply_ite (Option.map Data.ctr), Option.map_none, Option.map_some]
    exact dropped
  · have kept : Mem.Keeps mem mem₂ := (Mem.Keeps.of_some found data₁ rfl).trans (.of_data data₂)
    apply kept.trans
    split_ifs at data₃
    · exact .of_none data₃
    · exact .of_some found₂ data₃ rfl

/-- `curr->ctr++`. -/
theorem hold (records : Records mem pending waiting own held) (member : m ∈ pending) :
    ∃ mem', (mem.modify m fun r => { r with ctr := r.ctr + 1 }) = some mem' ∧
      Records mem' pending waiting own (m :: held) ∧ Mem.Keeps mem mem' := by
  obtain ⟨d, found, there⟩ := records.data_of_mem (List.mem_append_left _ (List.mem_append_left _ member))
  obtain ⟨mem', set, links, data⟩ := modify_spec found (fun r => { r with ctr := r.ctr + 1 })
    (fun d => { d with ctr := d.ctr + 1 }) (fun _ => rfl) (fun _ => rfl) fun _ => rfl
  refine ⟨mem', set, records.frame (fun k _ => by rw [links]) ?_ ?_, .of_some found data rfl⟩
  · have nodup := records.nodup
    have apart := records.apart
    grind
  · rw [Mem.counts_set there data]
    exact (records.counted.hold there).perm List.perm_middle.symm

/-- A change of a record that neither its message nor its counter has part in. -/
theorem change (records : Records mem pending waiting own held) (member : m ∈ pending ++ (waiting ++ own) ++ held)
    (set : FuseReq → FuseReq) (f : Data → Data) (next : ∀ r, (set r).next = r.next) (prev : ∀ r, (set r).prev = r.prev)
    (data : ∀ r, ⟨(set r).unique, (set r).ctr, (set r).interrupted, (set r).intr⟩ =
      f ⟨r.unique, r.ctr, r.interrupted, r.intr⟩)
    (unique : ∀ d, (f d).unique = d.unique) (ctr : ∀ d, (f d).ctr = d.ctr) :
    ∃ mem', mem.modify m set = some mem' ∧ Records mem' pending waiting own held ∧ Mem.Keeps mem mem' := by
  obtain ⟨d, found, there⟩ := records.data_of_mem member
  obtain ⟨mem', done, links, changed⟩ := modify_spec found set f next prev data
  refine ⟨mem', done, records.frame (fun k _ => by rw [links]) records.apart ?_,
    .of_some found changed (unique d).symm⟩
  rw [Mem.counts_set there changed, Option.map_some, ctr, ← there, Function.update_eq_self]
  exact records.counted

/-- A record is not held any more; it is gone if it was answered meanwhile. -/
theorem unhold (records : Records mem pending waiting own (m :: held)) :
    ∃ mem', releaseReq mem m = some mem' ∧ Records mem' pending waiting own held ∧ Mem.Keeps mem mem' := by
  have counted := records.counted.perm List.perm_middle
  obtain ⟨n, there, dropped⟩ := counted.drop
  obtain ⟨d, found, rfl⟩ := Mem.data_of_counts there
  obtain ⟨mem', set, links, data⟩ := releaseReq_spec found
  refine ⟨mem', set, records.frame (fun k among => links k ?_) ?_ ?_, ?_⟩
  · rw [or_iff_not_imp_left, not_not]
    rintro rfl
    have ringed := among.resolve_left (not_not_intro List.mem_cons_self)
    have count := counted k
    rw [there, if_pos List.mem_cons_self, List.count_cons_self, List.count_append] at count
    have positive := List.count_pos_iff.mpr ringed
    have twice := Option.some.inj count
    push_cast at twice
    omega
  · exact fun k member => records.apart k (List.mem_cons_of_mem m member)
  · rw [Mem.counts_set there data, apply_ite (Option.map Data.ctr), Option.map_none, Option.map_some]
    exact dropped
  · split_ifs at data
    · exact .of_none data
    · exact .of_some found data rfl

/-! ## Rings that grow and shrink -/

theorem enlisted_perm : (pending ++ (waiting ++ m :: own) ++ held).Perm (pending ++ [m] ++ (waiting ++ own) ++ held) := by
  simp only [List.append_assoc, List.cons_append, List.nil_append]
  exact List.perm_middle.append_left pending

/-- A record that a thread has by itself is put in the ring of the requests. -/
theorem addPending (records : Records mem pending waiting (m :: own) held) :
    ∃ mem', listAddReq mem m .list = some mem' ∧ Records mem' (pending ++ [m]) waiting own held ∧
      mem'.data = mem.data := by
  have nobody := records.own_notMem
  obtain ⟨address, rfl⟩ := records.address_of_mem (owned_perm.mem_iff.mpr List.mem_cons_self)
  obtain ⟨d, found, -⟩ := records.own_data
  have alive : (mem (.req address)).isSome := by rw [← Mem.isSome_data, found]; rfl
  have fresh : ReqPtr.req address ∉ ReqPtr.list :: pending := by grind
  obtain ⟨mem', set, data, ring, links⟩ := listAddReq_spec records.list alive fresh
  have head := records.list_notMem
  have head' := records.interrupts_notMem
  have nodup := records.nodup
  have apart := records.apart
  refine ⟨mem', set, ⟨ring, ?_, ?_, ?_, ?_, ?_⟩, data⟩
  · apply records.interrupts.congr
    intro k member
    exact links k (by grind)
  · intro k member
    apply (records.alone k (List.mem_cons_of_mem _ member)).congr
    intro k' same
    exact links k' (by grind)
  · refine (List.Perm.nodup_iff ?_).mp nodup
    have same := @enlisted_perm pending waiting own [] (.req address)
    rwa [List.append_nil, List.append_nil] at same
  · grind
  · rw [Mem.counts_of_data data]
    exact records.counted.perm enlisted_perm

/-- A record that a thread has by itself is put in the ring of the INTERRUPT messages. -/
theorem addWaiting (records : Records mem pending waiting (m :: own) held) :
    ∃ mem', listAddReq mem m .interrupts = some mem' ∧ Records mem' pending (waiting ++ [m]) own held ∧
      mem'.data = mem.data := by
  have nobody := records.own_notMem
  obtain ⟨address, rfl⟩ := records.address_of_mem (owned_perm.mem_iff.mpr List.mem_cons_self)
  obtain ⟨d, found, -⟩ := records.own_data
  have alive : (mem (.req address)).isSome := by rw [← Mem.isSome_data, found]; rfl
  have fresh : ReqPtr.req address ∉ ReqPtr.interrupts :: waiting := by grind
  obtain ⟨mem', set, data, ring, links⟩ := listAddReq_spec records.interrupts alive fresh
  have head := records.list_notMem
  have head' := records.interrupts_notMem
  have nodup := records.nodup
  have apart := records.apart
  refine ⟨mem', set, ⟨?_, ring, ?_, ?_, ?_, ?_⟩, data⟩
  · apply records.list.congr
    intro k member
    exact links k (by grind)
  · intro k member
    apply (records.alone k (List.mem_cons_of_mem _ member)).congr
    intro k' same
    exact links k' (by grind)
  · simpa using nodup
  · simpa using apart
  · rw [Mem.counts_of_data data]
    simpa using records.counted

theorem waiting_perm : (pending ++ (left ++ m :: right ++ own) ++ held).Perm
    (pending ++ (left ++ right ++ m :: own) ++ held) := by
  simp only [List.append_assoc, List.cons_append]
  exact (List.perm_middle.symm.append_left left).append_left pending

/-- An INTERRUPT is taken out of its ring, and its record goes to the thread. -/
theorem takeWaiting (records : Records mem pending (left ++ m :: right) own held)
    (ring : Ring mem'.links .interrupts (left ++ right)) (single : Ring mem'.links m [])
    (links : ∀ k ≠ m, k ∉ .interrupts :: (left ++ right) → mem'.links k = mem.links k) (data : mem'.data = mem.data) :
    Records mem' pending (left ++ right) (m :: own) held := by
  have head := records.list_notMem
  have head' := records.interrupts_notMem
  have nodup := records.nodup
  have apart := records.apart
  refine ⟨?_, ring, ?_, ?_, ?_, ?_⟩
  · apply records.list.congr
    intro k member
    exact links k (by grind) (by grind)
  · intro k member
    rcases List.mem_cons.mp member with rfl | member
    · exact single
    · apply (records.alone k member).congr
      intro k' same
      exact links k' (by grind) (by grind)
  · refine (List.Perm.nodup_iff ?_).mp nodup
    have same := @waiting_perm pending own [] left right m
    rwa [List.append_nil, List.append_nil] at same
  · grind
  · rw [Mem.counts_of_data data]
    exact records.counted.perm waiting_perm

/-- `list_del_req` and then `list_init_req`. -/
theorem takeOut (records : Records mem pending (left ++ m :: right) own held) :
    ∃ mem₁ mem₂, listDelReq mem m = some mem₁ ∧ listInitReq mem₁ m = some mem₂ ∧
      Records mem₂ pending (left ++ right) (m :: own) held ∧ mem₁.data = mem.data ∧ mem₂.data = mem₁.data ∧
      ∀ k ≠ m, mem₂.links k = mem₁.links k := by
  obtain ⟨mem₁, set₁, data₁, ring₁, links₁⟩ := listDelReq_spec records.interrupts
  have member : m ∈ pending ++ (left ++ m :: right ++ own) ++ held := by grind
  obtain ⟨d, found, -⟩ := records.data_of_mem member
  have alive : (mem₁ m).isSome := by rw [← Mem.isSome_data, data₁, found]; rfl
  obtain ⟨mem₂, set₂, data₂, single, links₂⟩ := listInitReq_spec alive
  have nodup := records.interrupts.2
  refine ⟨mem₁, mem₂, set₁, set₂, records.takeWaiting ?_ single ?_ (data₂.trans data₁), data₁, data₂, links₂⟩
  · apply ring₁.congr
    intro k among
    apply links₂
    grind
  · intro k other outside
    rw [links₂ k other, links₁ k outside]

/-- `list_del_req` of an INTERRUPT, and the end of its record. -/
theorem useUp (records : Records mem pending (left ++ m :: right) own held) :
    ∃ mem₁ mem', listDelReq mem m = some mem₁ ∧ destroyReq mem₁ m = some mem' ∧
      Records mem' pending (left ++ right) own held ∧ Mem.Keeps mem mem' := by
  obtain ⟨mem₁, mem₂, set₁, -, taken, data₁, data₂, links₂⟩ := records.takeOut
  obtain ⟨d, found, -⟩ := taken.own_data
  have alive : (mem₁ m).isSome := by rw [← Mem.isSome_data, ← data₂, found]; rfl
  obtain ⟨mem', set, data, links⟩ := destroyReq_spec alive
  refine ⟨mem₁, mem', set₁, set, taken.drop (fun k other => ?_) ?_, ?_⟩
  · rw [links k other, links₂ k other]
  · rw [data, data₂]
  · exact (Mem.Keeps.of_data data₁).trans (.of_none data)

end Records

end FsPkg.Fuse
