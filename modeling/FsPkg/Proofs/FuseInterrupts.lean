import FsPkg.Proofs.FuseRecords

/-! # INTERRUPT messages and requests that come in

What `do_interrupt` and `check_interrupt` leave of the rings, and who has the records afterwards.
-/

namespace FsPkg.Fuse

open Machine

variable {mem : Mem} {pending waiting own held : List ReqPtr} {req : ReqPtr} {fuel : ℕ}

namespace Records

theorem own_mem : req ∈ pending ++ (waiting ++ req :: own) ++ held :=
  List.mem_append_left _ (List.mem_append_right _ (List.mem_append_right _ List.mem_cons_self))

/-- An INTERRUPT is with its thread, which then holds a request, or waits, or is gone. -/
theorem doInterrupt_spec (records : Records mem pending waiting (req :: own) held) (enough : pending.length < fuel)
    (enough' : waiting.length < fuel) (unique : UInt64) :
    ∃ mem' curr waiting', doInterrupt fuel mem req unique = some (mem', curr) ∧
      Records mem' pending waiting' ((curr.map fun _ => req).toList ++ own) (curr.toList ++ held) ∧
      Mem.Keeps mem mem' ∧ (waiting' ++ (curr.map fun _ => req).toList).Subperm (waiting ++ [req]) := by
  obtain ⟨mem₁, set₁, records₁, keeps₁⟩ := records.change own_mem (fun r => { r with intr := unique })
    (fun d => { d with intr := unique }) (fun _ => rfl) (fun _ => rfl) (fun _ => rfl) (fun _ => rfl) fun _ => rfl
  obtain ⟨d, found, -⟩ := records₁.own_data
  obtain ⟨r, there, -⟩ := Mem.of_data found
  have searched := searchRing_spec (fun curr => curr.unique == r.intr) (fun d => d.unique == r.intr)
    (fun _ => rfl) records₁.list enough
  have searched' := searchRing_spec (fun curr => curr.intr == r.intr) (fun d => d.intr == r.intr)
    (fun _ => rfl) records₁.interrupts enough'
  cases first : pending.find? fun k => (mem₁.data k).any fun d => d.unique == r.intr with
  | some curr =>
    obtain ⟨mem₂, set₂, records₂, keeps₂⟩ := records₁.hold (List.mem_of_find?_eq_some first)
    refine ⟨mem₂, some curr, waiting, ?_, records₂, keeps₁.trans keeps₂, List.Subperm.refl _⟩
    simp only [doInterrupt, findInterrupted, set₁, there, searched, first, set₂, bind, Option.bind_some]
  | none =>
    cases second : waiting.find? fun k => (mem₁.data k).any fun d => d.intr == r.intr with
    | some other =>
      obtain ⟨mem₂, set₂, records₂, keeps₂⟩ := records₁.destroy
      refine ⟨mem₂, none, waiting, ?_, records₂, keeps₁.trans keeps₂, ?_⟩
      · simp only [doInterrupt, findInterrupted, set₁, there, searched, searched', first, second, set₂, bind,
          Option.bind_some]
      · simpa using (List.sublist_append_left waiting [req]).subperm
    | none =>
      obtain ⟨mem₂, set₂, records₂, data₂⟩ := records₁.addWaiting
      refine ⟨mem₂, none, waiting ++ [req], ?_, records₂, keeps₁.trans (.of_data data₂), ?_⟩
      · simp only [doInterrupt, findInterrupted, set₁, there, searched, searched', first, second, set₂, bind,
          Option.bind_some]
      · simpa using List.Subperm.refl (waiting ++ [req])

/-- `check_interrupt` takes at most one INTERRUPT out of the ring, which is gone or goes to the thread. -/
theorem checkInterrupt_spec (records : Records mem pending waiting (req :: own) held)
    (enough : waiting.length < fuel) :
    ∃ mem' intr waiting', checkInterrupt fuel mem req = some (mem', intr) ∧
      Records mem' pending waiting' (req :: (intr.toList ++ own)) held ∧ Mem.Keeps mem mem' ∧
      (waiting' ++ intr.toList).Subperm waiting := by
  obtain ⟨d, found, -⟩ := records.own_data
  obtain ⟨r, there, -⟩ := Mem.of_data found
  have searched := searchRing_spec (fun curr => curr.intr == r.unique) (fun d => d.intr == r.unique)
    (fun _ => rfl) records.interrupts enough
  cases first : waiting.find? fun k => (mem.data k).any fun d => d.intr == r.unique with
  | some curr =>
    obtain ⟨left, right, rfl⟩ := List.append_of_mem (List.mem_of_find?_eq_some first)
    obtain ⟨mem₁, set₁, records₁, keeps₁⟩ := records.change own_mem (fun r => { r with interrupted := true })
      (fun d => { d with interrupted := true }) (fun _ => rfl) (fun _ => rfl) (fun _ => rfl) (fun _ => rfl) fun _ => rfl
    obtain ⟨mem₂, mem₃, set₂, set₃, records₃, keeps₃⟩ := records₁.useUp
    refine ⟨mem₃, none, left ++ right, ?_, records₃, keeps₁.trans keeps₃, ?_⟩
    · simp only [checkInterrupt, there, searched, first, set₁, set₂, set₃, bind, Option.bind_some]
    · simpa using ((List.sublist_cons_self curr right).append_left left).subperm
  | none =>
    obtain ⟨h, head, same⟩ := Option.map_eq_some_iff.mp records.interrupts.link_head
    obtain ⟨next, -⟩ := Link.mk.inj same
    cases waiting with
    | nil =>
      refine ⟨mem, none, [], ?_, records, fun k d found => ⟨d, found, rfl⟩, List.Subperm.refl _⟩
      have empty : h.next = .interrupts := Option.some.inj next
      simp only [checkInterrupt, there, searched, first, head, empty, if_true, bind, Option.bind_some]
    | cons curr waiting =>
      obtain rfl : h.next = curr := Option.some.inj next
      have other : h.next ≠ .interrupts := by
        intro same
        exact records.interrupts_notMem (by grind)
      have whole : Records mem pending ([] ++ h.next :: waiting) (req :: own) held := records
      obtain ⟨mem₁, mem₂, set₁, set₂, records₂, data₁, data₂, -⟩ := whole.takeOut
      refine ⟨mem₂, some h.next, waiting, ?_, records₂.perm (List.Perm.swap _ _ _) (List.Perm.refl _), ?_, ?_⟩
      · simp only [checkInterrupt, there, searched, first, head, if_neg other, set₁, set₂, bind, Option.bind_some]
      · exact .of_data (data₂.trans data₁)
      · exact (List.perm_append_singleton h.next waiting).subperm

/-- A request takes its place, and an INTERRUPT that waited goes to the thread, is gone, or there was none. -/
theorem enlist_spec (records : Records mem pending waiting (req :: own) held) (enough : waiting.length < fuel) :
    ∃ mem' intr waiting', enlist fuel req mem = some (mem', intr) ∧
      Records mem' (pending ++ [req]) waiting' (intr.toList ++ own) held ∧ Mem.Keeps mem mem' ∧
      (waiting' ++ intr.toList).Subperm waiting := by
  obtain ⟨mem₁, intr, waiting', checked, records₁, keeps₁, fewer⟩ := records.checkInterrupt_spec enough
  obtain ⟨mem₂, added, records₂, data₂⟩ := records₁.addPending
  refine ⟨mem₂, intr, waiting', ?_, records₂, keeps₁.trans (.of_data data₂), fewer⟩
  simp only [enlist, checked, added, bind, Option.bind_some]

end Records

end FsPkg.Fuse
