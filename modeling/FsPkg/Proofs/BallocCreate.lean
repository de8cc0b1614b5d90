import FsPkg.Proofs.BallocRuns

/-! # Creating a heap

`blockheap_create` has no path that returns `NULL`: sizes that make no sense only raise `conf.dying`, a failed `calloc`
is followed by a write through the null pointer, and a first block that cannot be had by writes to the freed record.
It does what its callers expect exactly when the sizes are positive, their product fits `size_t`, and both allocations
succeed.
-/

namespace FsPkg.Balloc

open Dlink

variable {β : Type} [Zeros β] {elemsize : UInt64} {elemsperblock : Int32} {os : BlockEnv}

/-! ## The padded size -/

/-- The next multiple of a pointer's size. -/
def roundUp (size : ℕ) : ℕ := (size + 7) / 8 * 8

theorem roundUp_isLeast (size : ℕ) : IsLeast {multiple | 8 ∣ multiple ∧ size ≤ multiple} (roundUp size) := by
  unfold roundUp
  refine ⟨⟨Nat.dvd_mul_left .., by omega⟩, ?_⟩
  rintro multiple ⟨divides, above⟩
  omega

/-- The mask clears the last three bits. -/
private theorem and_mask_toNat (size : UInt64) : (size &&& ~~~(sizeofPointer - 1)).toNat = size.toNat / 8 * 8 := by
  have mask : (~~~(sizeofPointer - 1) : UInt64).toBitVec = BitVec.allOnes 64 <<< 3 := by decide
  rw [← UInt64.toNat_toBitVec, UInt64.toBitVec_and, mask, ← BitVec.shiftLeft_ushiftRight, BitVec.toNat_shiftLeft,
    BitVec.toNat_ushiftRight, UInt64.toNat_toBitVec, Nat.shiftRight_eq_div_pow, Nat.shiftLeft_eq]
  have bound := size.toNat_lt
  omega

/-- The padded size is the next multiple, cut to `size_t`. -/
theorem padElemSize_toNat (elemsize : UInt64) : (padElemSize elemsize).toNat = roundUp elemsize.toNat % 2 ^ 64 := by
  have rest : (elemsize % sizeofPointer).toNat = elemsize.toNat % 8 := UInt64.toNat_mod ..
  have bound := elemsize.toNat_lt
  unfold padElemSize roundUp
  split
  · next ragged =>
    have remainder : elemsize.toNat % 8 ≠ 0 := by
      intro zero
      rw [zero] at rest
      exact ragged (UInt64.toNat_inj.mp rest)
    have sum : (elemsize + sizeofPointer).toNat = (elemsize.toNat + 8) % 2 ^ 64 := UInt64.toNat_add ..
    rw [and_mask_toNat, sum]
    omega
  · next even =>
    rw [not_not] at even
    rw [even] at rest
    have zero : elemsize.toNat % 8 = 0 := rest.symm
    omega

/-- A padded size that leaves room for its header is not cut. -/
theorem padElemSize_of_small {elemsize : UInt64} {count : ℕ}
    (small : (count + 1) * (roundUp elemsize.toNat + 32) < 2 ^ 64) :
    (padElemSize elemsize).toNat = roundUp elemsize.toNat := by
  have single : 1 * (roundUp elemsize.toNat + 32) ≤ (count + 1) * (roundUp elemsize.toNat + 32) :=
    Nat.mul_le_mul_right _ (Nat.le_add_left 1 count)
  rw [padElemSize_toNat]
  exact Nat.mod_eq_of_lt (by omega)

/-! ## The size of a block -/

omit [Zeros β] in
/-- The size in `size_t` is that of the layout modulo its range. -/
theorem emptyHeap_allocSize (elemsize : UInt64) (sensible : 1 ≤ elemsperblock) :
    (emptyHeap elemsize elemsperblock : BlockHeap β).allocSize.toNat =
      (elemsperblock.toInt.toNat + 1) * ((padElemSize elemsize).toNat + 32) % 2 ^ 64 := by
  have count := emptyHeap_elemsPerBlock (β := β) elemsize sensible
  have same : (emptyHeap elemsize elemsperblock : BlockHeap β).elemsPerBlock.toNat = elemsperblock.toInt.toNat := by
    omega
  rw [BlockHeap.allocSize, UInt64.toNat_mul, UInt64.toNat_add, UInt64.toNat_add, same, ← Nat.mul_mod]
  rfl

/-- A product of sizes that was cut to `size_t` leaves no room for the elements. -/
theorem mul_le_mod_iff {count stride : ℕ} (positive : 1 ≤ count) :
    count * stride ≤ (count + 1) * stride % 2 ^ 64 ↔ (count + 1) * stride < 2 ^ 64 := by
  have more : stride ≤ count * stride := Nat.le_mul_of_pos_left stride positive
  rw [Nat.add_mul, Nat.one_mul]
  generalize count * stride = elements at *
  constructor
  · intro fits
    have split := Nat.div_add_mod (elements + stride) (2 ^ 64)
    have small := Nat.mod_lt (elements + stride) (y := 2 ^ 64) (by decide)
    omega
  · intro small
    rw [Nat.mod_eq_of_lt small]
    omega

omit [Zeros β] in
theorem emptyHeap_fits_iff (elemsize : UInt64) (sensible : 1 ≤ elemsperblock) :
    (emptyHeap elemsize elemsperblock : BlockHeap β).elemsPerBlock.toNat *
        (emptyHeap elemsize elemsperblock : BlockHeap β).stride ≤
      (emptyHeap elemsize elemsperblock : BlockHeap β).allocSize.toNat ↔
    (elemsperblock.toInt.toNat + 1) * ((padElemSize elemsize).toNat + 32) < 2 ^ 64 := by
  have count := emptyHeap_elemsPerBlock (β := β) elemsize sensible
  have bound : 1 ≤ elemsperblock.toInt := Int32.le_iff_toInt_le.mp sensible
  have same : (emptyHeap elemsize elemsperblock : BlockHeap β).elemsPerBlock.toNat = elemsperblock.toInt.toNat := by
    omega
  rw [same, emptyHeap_allocSize elemsize sensible, ← mul_le_mod_iff (by omega)]
  rfl

/-! ## What the caller gets -/

/-- Without its globals this is `blockheap_create` as the runs of the allocator start with it. -/
theorem blockheapCreateIn_heap (elemsize : UInt64) (elemsperblock : Int32) (calloc : Option ℕ) (os : BlockEnv)
    (globals : Globals) :
    (blockheapCreateIn elemsize elemsperblock calloc os globals).bind (fun result => result.1.map Prod.snd) =
      (blockheapCreate elemsize elemsperblock calloc.isSome os : Option (BlockHeap β)) := by
  cases calloc with
  | none => rfl
  | some address =>
    simp only [blockheapCreateIn, blockheapCreate, Option.isSome_some, Bool.not_true, Bool.false_eq_true, if_false]
    cases new : blockheapBlockNew (emptyHeap elemsize elemsperblock : BlockHeap β) os with
    | none => rfl
    | some result =>
      obtain ⟨code, bh⟩ := result
      by_cases zero : code = 0
      · simp [zero]
      · simp [zero]

/-- There is no path that returns `NULL`. -/
theorem blockheapCreateIn_ne_null {calloc : Option ℕ} {globals globals' : Globals}
    {result : Option (ℕ × BlockHeap β)}
    (ran : blockheapCreateIn elemsize elemsperblock calloc os globals = some (result, globals')) : result ≠ none := by
  cases calloc with
  | none => cases ran
  | some address =>
    simp only [blockheapCreateIn, bind, Option.bind_eq_some_iff] at ran
    obtain ⟨⟨code, bh⟩, -, ran⟩ := ran
    dsimp only at ran
    split at ran
    · cases ran
    · cases ran
      exact Option.some_ne_none _

/-- What the callers rely on: `NULL` and an unchanged registry when the sizes make no sense or memory cannot be had,
else a registered heap whose one block is free and from which the next allocation succeeds. -/
def CreatesCleanly (β : Type) [Zeros β] (elemsize : UInt64) (elemsperblock : Int32) (calloc : Option ℕ) (os : BlockEnv)
    (globals : Globals) : Prop :=
  (elemsize = 0 ∨ elemsperblock ≤ 0 ∨ ¬(calloc.isSome ∧ os.Succeeds) →
    ∃ globals', blockheapCreateIn (β := β) elemsize elemsperblock calloc os globals = some (none, globals') ∧
      globals'.heapLists = globals.heapLists) ∧
  (¬(elemsize = 0 ∨ elemsperblock ≤ 0 ∨ ¬(calloc.isSome ∧ os.Succeeds)) →
    ∃ address bh b globals', calloc = some address ∧
      blockheapCreateIn (β := β) elemsize elemsperblock calloc os globals = some (some (address, bh), globals') ∧
      globals'.heapLists = dlinkAdd address globals.heapLists ∧ bh.base = [b] ∧ bh.blocksAllocated = 1 ∧
      b.freeList.nodes.Perm (slots b.elems bh.elemsPerBlock.toNat) ∧ b.usedList.nodes = [] ∧
      (bh.freeElems.toNat : ℤ) = elemsperblock.toInt ∧
      ∀ next : BlockEnv, ∃ ptr heap, blockheapAlloc bh next = some ⟨some ptr, heap, false⟩)

/-- The result when both allocations succeed and the sizes are sensible and fit. -/
theorem blockheapCreateIn_spec (sensible : 1 ≤ elemsperblock)
    (small : (elemsperblock.toInt.toNat + 1) * ((padElemSize elemsize).toNat + 32) < 2 ^ 64)
    (succeeds : os.Succeeds) (lawful : os.Lawful (emptyHeap (β := β) elemsize elemsperblock)) (address : ℕ)
    (globals : Globals) :
    ∃ elems, Created elemsize elemsperblock ((emptyHeap elemsize elemsperblock : BlockHeap β).grown elems) ∧
      blockheapCreateIn (β := β) elemsize elemsperblock (some address) os globals =
        some (some (address, (emptyHeap elemsize elemsperblock).grown elems),
          { heapLists := dlinkAdd address globals.heapLists
            dying := globals.dying || decide (elemsize ≤ 0 ∨ elemsperblock ≤ 0) }) := by
  obtain ⟨calloc, mapped⟩ := succeeds
  obtain ⟨elems, mmap⟩ := Option.isSome_iff_exists.mp mapped
  have fits := (emptyHeap_fits_iff (β := β) elemsize sensible).mpr small
  have new := blockheapBlockNew_succeeds fits calloc mmap
  refine ⟨elems, ⟨true, os, lawful, ?_⟩, ?_⟩
  · simp [blockheapCreate, new]
  · simp [blockheapCreateIn, new]

/-- `blockheap_create` does what its callers rely on exactly when both allocations succeed, the sizes are positive, and
their product fits `size_t`. -/
theorem blockheap_create_clean (calloc : Option ℕ) (globals : Globals)
    (lawful : os.Lawful (emptyHeap (β := β) elemsize elemsperblock)) :
    CreatesCleanly β elemsize elemsperblock calloc os globals ↔
      calloc.isSome ∧ os.Succeeds ∧ elemsize ≠ 0 ∧ 1 ≤ elemsperblock ∧
        (elemsperblock.toInt.toNat + 1) * ((padElemSize elemsize).toNat + 32) < 2 ^ 64 := by
  have positive : ¬elemsperblock ≤ 0 ↔ 1 ≤ elemsperblock := by
    rw [Int32.le_iff_toInt_le, Int32.le_iff_toInt_le]
    exact not_le
  constructor
  · rintro ⟨refuses, creates⟩
    by_cases failing : elemsize = 0 ∨ elemsperblock ≤ 0 ∨ ¬(calloc.isSome ∧ os.Succeeds)
    · obtain ⟨globals', ran, -⟩ := refuses failing
      exact (blockheapCreateIn_ne_null ran rfl).elim
    · obtain ⟨address, bh, b, globals', -, ran, -⟩ := creates failing
      simp only [not_or, not_not, positive] at failing
      obtain ⟨nonzero, sensible, memory, succeeds⟩ := failing
      refine ⟨memory, succeeds, nonzero, sensible, (emptyHeap_fits_iff (β := β) elemsize sensible).mp ?_⟩
      -- a heap came out, so the setup loop stayed inside its area
      have heap := blockheapCreateIn_heap (β := β) elemsize elemsperblock calloc os globals
      rw [ran] at heap
      obtain ⟨elems, rfl, fits, -⟩ := Created.first_block ⟨_, os, lawful, heap.symm⟩
      exact fits
  · rintro ⟨memory, succeeds, nonzero, sensible, small⟩
    obtain ⟨address, rfl⟩ := Option.isSome_iff_exists.mp memory
    have fine : ¬(elemsize = 0 ∨ elemsperblock ≤ 0 ∨ ¬((some address).isSome ∧ os.Succeeds)) := by
      simp only [not_or, not_not, positive]
      exact ⟨nonzero, sensible, memory, succeeds⟩
    refine ⟨fun failing => (fine failing).elim, fun _ => ?_⟩
    obtain ⟨elems, created, ran⟩ :=
      blockheapCreateIn_spec (β := β) sensible small succeeds lawful address globals
    obtain ⟨inv, count, -⟩ := created.invariant sensible
    have free : (((emptyHeap elemsize elemsperblock : BlockHeap β).grown elems).freeElems.toNat : ℤ) =
        elemsperblock.toInt := by
      rw [← count]
      simp [BlockHeap.grown, emptyHeap]
    refine ⟨address, _, _, _, rfl, ran, rfl, rfl, rfl, ?_, rfl, free, ?_⟩
    · rw [BlockHeap.freshBlock_free]
      exact List.reverse_perm _
    · intro next
      have some_ : ((emptyHeap elemsize elemsperblock : BlockHeap β).grown elems).freeElems ≠ 0 := by
        intro zero
        rw [zero] at free
        have bound : 1 ≤ elemsperblock.toInt := Int32.le_iff_toInt_le.mp sensible
        simp only [UInt64.toNat_zero] at free
        omega
      obtain ⟨ptr, heap, ran, -⟩ := inv.alloc_of_free some_ next
      exact ⟨ptr, heap, ran⟩

theorem blockheap_create_clean_small :
    CreatesCleanly (List UInt8) 5 2 (some 64) ⟨true, some 4096⟩ {} := by
  have lawful : BlockEnv.Lawful ⟨true, some 4096⟩ (emptyHeap (β := List UInt8) 5 2) := emptyHeap_lawful true (by decide)
  exact (blockheap_create_clean (some 64) {} lawful).mpr ⟨rfl, by decide, by decide, by decide, by decide⟩

/-- No elements per block, as a configuration may ask for: a heap comes out and is registered. -/
theorem blockheap_create_registers_empty : ∃ (heap : BlockHeap (List UInt8)) (globals : Globals),
    blockheapCreateIn 24 0 (some 64) ⟨true, some 4096⟩ {} = some (some (64, heap), globals) ∧
    globals.heapLists.nodes = [64] ∧ globals.dying = true ∧ heap.freeElems = 0 ∧
    ¬CreatesCleanly (List UInt8) 24 0 (some 64) ⟨true, some 4096⟩ {} := by
  refine ⟨_, _, rfl, rfl, rfl, rfl, ?_⟩
  rintro ⟨refuses, -⟩
  obtain ⟨globals, ran, -⟩ := refuses (.inr (.inl (by decide)))
  exact blockheapCreateIn_ne_null ran rfl

end FsPkg.Balloc
