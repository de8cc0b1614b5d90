import FsPkg.Model.PkgMap
import FsPkg.Proofs.BallocRuns
import FsPkg.Proofs.VfsFuseSpec

/-! # What `pkg_map_file` reports and gives back

The call never gets past `blockheap_alloc`, since nothing creates the heap of its records. With a heap, the test of
the descriptor is never true and a failed mapping returns the record that was just freed, so that every failure is
reported as a success; and descriptor 0 is left open by `pkg_unmap_file`.
-/

namespace FsPkg.PkgMap

open Balloc
open Pkg (Text)
open Vfs (Provides logicalNot)

/-- The records that are allocated, with what is in them. -/
def Process.live (st : Process) (p : MemBlock) : Option FileMapping :=
  st.heap.bind (·.live p)

/-- The record is a new element of its heap with an open descriptor and a mapping; and `pkg_unmap_file` on it gives
back whatever the call took, each thing once. -/
def Usable (before after : Process) (p : MemBlock) : Prop :=
  ∃ record addr taken, before.live p = none ∧ after.live = Function.update before.live p (some record) ∧
    after.held = taken ++ before.held ∧ .descriptor record.fd ∈ taken ∧ record.addr = .mapped addr ∧
    .mapping addr record.len ∈ taken ∧
    ∃ final, pkgUnmapFile p after = some final ∧ final.held = before.held ∧ final.live = before.live

/-- The call returns; it returns `NULL` if and only if `open` or `mmap` failed, and then nothing of the attempt
remains; and the record that it returns can be used. -/
def Reports (path : Text) (len : UInt64) (offset : Int64) (env : MapEnv) (st : Process) : Prop :=
  ∃ result after, pkgMapFile path len offset env st = some (result, after) ∧
    (result = none ↔ env.open_ = -1 ∨ env.mmap = .mapFailed) ∧
    (result = none → after.held = st.held ∧ after.live = st.live) ∧
    ∀ p, result = some p → Usable st after p

section Spec

variable {path : Text} {len : UInt64} {offset : Int64} {env : MapEnv}

/-- The heap is never created. -/
theorem pkgMapFile_null (held : List Resource) : pkgMapFile path len offset env ⟨none, held⟩ = none := rfl

theorem logicalNot_ne (n : Int32) : logicalNot n ≠ -1 := by
  unfold logicalNot
  split
  · decide
  · decide

/-- The record as it is stored. -/
def stored (path : Text) (len : UInt64) (offset : Int64) (env : MapEnv) : FileMapping where
  pkg := if env.strdup then some path else none
  len := len
  offset := offset
  fd := env.open_
  addr := env.mmap

/-- What the call takes from the system. -/
def taken (path : Text) (len : UInt64) (env : MapEnv) : List Resource :=
  env.mmap.mapping len ++
    ((if env.open_ ≠ -1 then [.descriptor env.open_] else []) ++ (if env.strdup then [.name path] else []))

/-- With an element, the call goes through to the mapping. -/
theorem pkgMapFile_spec (path : Text) (len : UInt64) (offset : Int64) {bh : BlockHeap FileMapping} (inv : Invariant bh) (lawful : env.block.Lawful bh)
    (held : List Resource) :
    (¬Provides env.block bh ∧ pkgMapFile path len offset env ⟨some bh, held⟩ = none) ∨
    (Provides env.block bh ∧ ∃ p heap, bh.live p = none ∧ Invariant heap ∧
      heap.live = Function.update bh.live p (some (stored path len offset env)) ∧
      pkgMapFile path len offset env ⟨some bh, held⟩ =
        if env.mmap = .mapFailed then
          (pkgUnmapFile p ⟨some heap, taken path len env ++ held⟩).map (some p, ·)
        else some (some p, ⟨some heap, taken path len env ++ held⟩)) := by
  rcases inv.alloc_spec lawful with
    ⟨full, refused, alloc⟩ | ⟨p, heap, provides, alloc, inv', -, -, fresh, live, -⟩
  · refine .inl ⟨not_or.mpr ⟨not_not.mpr full, refused⟩, ?_⟩
    simp only [pkgMapFile, bind, Option.bind_some, alloc, Option.bind_none]
  · obtain ⟨filled, wrote, inv', live'⟩ := inv'.store_spec live (stored path len offset env)
    refine .inr ⟨provides, p, filled, fresh, inv', live', ?_⟩
    simp only [pkgMapFile, bind, Option.bind_some, alloc, if_neg (logicalNot_ne env.open_)]
    unfold stored at wrote
    simp only [Process.store, Process.acquire, bind, Option.bind_some, wrote, taken, List.append_assoc]
    split
    · exact Option.map_eq_bind.symm
    · rfl

/-- `pkg_unmap_file` on a record that was mapped: a descriptor that is not positive stays open. -/
theorem pkgUnmapFile_spec {earlier : MemBlock → Option FileMapping} {heap : BlockHeap FileMapping} {p : MemBlock}
    (inv : Invariant heap) (fresh : earlier p = none)
    (live : heap.live = Function.update earlier p (some (stored path len offset env))) {addr : ℕ}
    (opened : env.open_ ≠ -1) (mapped : env.mmap = .mapped addr) (held : List Resource) :
    ∃ freed, freed.live = earlier ∧ pkgUnmapFile p ⟨some heap, taken path len env ++ held⟩ =
      some ⟨some freed, if 0 < env.open_ then held else .descriptor env.open_ :: held⟩ := by
  obtain ⟨freed, gave, -, live'⟩ := inv.give_back fresh live
  have read : heap.read p = some (stored path len offset env) := by
    apply inv.read_of_live
    rw [live, Function.update_self]
  refine ⟨freed, live', ?_⟩
  simp only [pkgUnmapFile, bind, Option.bind_some, read, gave]
  simp only [stored, taken, mapped, Addr.mapping, if_pos opened, List.foldl_cons, List.foldl_nil, Process.release,
    List.cons_append, List.nil_append, List.erase_cons_head]
  cases env.strdup with
  | false =>
    simp only [Bool.false_eq_true, if_false, List.nil_append]
    split
    · rfl
    · rfl
  | true =>
    have present : Resource.name path ∈ Resource.descriptor env.open_ :: ([.name path] ++ held) := by simp
    have erased : (Resource.descriptor env.open_ :: ([.name path] ++ held)).erase (.name path) =
        .descriptor env.open_ :: held := by
      rw [List.erase_cons_tail (by simp), List.singleton_append, List.erase_cons_head]
    simp only [if_true, Process.free, if_pos present, Option.bind_some, erased]
    split
    · rw [List.erase_cons_head]
    · rfl

/-- A descriptor that is zero, or a mapping at `NULL`, is not given back. -/
theorem usable_iff {bh heap : BlockHeap FileMapping} {p : MemBlock} (inv : Invariant heap) (fresh : bh.live p = none)
    (live : heap.live = Function.update bh.live p (some (stored path len offset env))) (opened : env.open_ ≠ -1)
    (held : List Resource) :
    Usable ⟨some bh, held⟩ ⟨some heap, taken path len env ++ held⟩ p ↔
      0 < env.open_ ∧ ∃ addr, env.mmap = .mapped addr := by
  constructor
  · rintro ⟨record, addr, took, -, now, -, -, mapped, -, final, gave, back, -⟩
    have same : record = stored path len offset env := by
      have here : (some heap).bind (·.live p) = some record := by
        rw [show ((some heap).bind fun h => h.live p) = _ from congrFun now p, Function.update_self]
      rw [Option.bind_some, live, Function.update_self] at here
      exact (Option.some.inj here).symm
    rw [same] at mapped
    obtain ⟨freed, -, unmapped⟩ := pkgUnmapFile_spec inv fresh live opened mapped held
    rw [unmapped] at gave
    obtain rfl := Option.some.inj gave
    refine ⟨?_, addr, mapped⟩
    by_contra zero
    rw [if_neg zero] at back
    exact List.cons_ne_self _ _ back
  · rintro ⟨positive, addr, mapped⟩
    obtain ⟨freed, live', unmapped⟩ := pkgUnmapFile_spec inv fresh live opened mapped held
    refine ⟨stored path len offset env, addr, taken path len env, fresh, live, rfl, ?_, mapped, ?_, _, unmapped,
      if_pos positive, live'⟩
    · simp [taken, opened, stored]
    · simp [taken, mapped, Addr.mapping, stored]

end Spec

/-- Nothing is ever reported, since the heap is never created. If it were, a call would keep what is said of it exactly
when an element can be had, `open` returns a positive descriptor and `mmap` returns a mapping. -/
theorem pkgMapFile_reports_iff (path : Text) (len : UInt64) (offset : Int64) (env : MapEnv) (held : List Resource) :
    ¬Reports path len offset env ⟨none, held⟩ ∧
      ∀ bh, Invariant bh → env.block.Lawful bh →
        (Reports path len offset env ⟨some bh, held⟩ ↔
          Provides env.block bh ∧ 0 < env.open_ ∧ ∃ addr, env.mmap = .mapped addr) := by
  refine ⟨?_, ?_⟩
  · rintro ⟨result, after, ran, -⟩
    rw [pkgMapFile_null] at ran
    contradiction
  · intro bh inv lawful
    rcases pkgMapFile_spec path len offset inv lawful held with
      ⟨refused, ran⟩ | ⟨provides, p, heap, fresh, inv', live, ran⟩
    · refine iff_of_false ?_ (fun condition => refused condition.1)
      rintro ⟨result, after, returned, -⟩
      rw [ran] at returned
      contradiction
    · by_cases failed : env.open_ = -1 ∨ env.mmap = .mapFailed
      · refine iff_of_false ?_ ?_
        · rintro ⟨result, after, returned, null, -⟩
          rw [ran, null.mpr failed] at returned
          split at returned
          · obtain ⟨_, -, same⟩ := Option.map_eq_some_iff.mp returned
            cases same
          · cases returned
        · rintro ⟨-, positive, addr, mapped⟩
          rcases failed with closed | unmapped
          · rw [closed] at positive
            exact absurd positive (by decide)
          · rw [unmapped] at mapped
            contradiction
      · obtain ⟨opened, mapped⟩ := not_or.mp failed
        rw [if_neg mapped] at ran
        rw [← usable_iff inv' fresh live opened held]
        constructor
        · rintro ⟨result, after, returned, -, -, usable⟩
          rw [ran] at returned
          obtain ⟨rfl, rfl⟩ := Prod.ext_iff.mp (Option.some.inj returned)
          exact ⟨provides, usable p rfl⟩
        · rintro ⟨-, usable⟩
          refine ⟨some p, _, ran, iff_of_false nofun failed, nofun, ?_⟩
          rintro other same
          cases same
          exact usable

/-- Every call of the system succeeds, and the process has nothing yet. -/
def allGranted : MapEnv where
  block := ⟨true, some 4096⟩
  strdup := true
  open_ := 3
  mmap := .mapped 1048576

/-- A heap for the records, as `blockheap_create` would make it. -/
def mappingHeap : BlockHeap FileMapping := (emptyHeap 40 2).grown 4096

theorem mappingHeap_invariant : Invariant mappingHeap := by
  have created : Created 40 2 mappingHeap := ⟨true, ⟨true, some 4096⟩, emptyHeap_lawful true (by decide), rfl⟩
  exact (created.invariant (by decide)).1

theorem pkgMapFile_reports_mappingHeap :
    Reports "a.xar".toList 4096 0 { allGranted with block := ⟨true, none⟩ } ⟨some mappingHeap, []⟩ := by
  refine ((pkgMapFile_reports_iff _ _ _ _ _).2 mappingHeap mappingHeap_invariant ?_).mpr ?_
  · simp [BlockEnv.Lawful]
  · exact ⟨.inl (by decide), by decide, 1048576, rfl⟩

/-- The call reads the counter of a heap that is not there, whatever the system would grant. -/
theorem pkgMapFile_not_reports : ¬Reports "a.xar".toList 4096 0 allGranted {} := by
  rintro ⟨result, after, ran, -⟩
  rw [pkgMapFile_null] at ran
  contradiction

end FsPkg.PkgMap
