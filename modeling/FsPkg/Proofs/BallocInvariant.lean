import FsPkg.Model.Balloc
import FsPkg.ToMathlib.DisjointIntervals
import Mathlib.Data.List.Perm.Basic

/-! # The representation invariant of a block heap

Every block holds each of its headers on exactly one of its two lists, the three counters agree
with the chain, and the areas of the blocks are disjoint pieces of one 64-bit address space. The
last point is what keeps the counters from wrapping: an element occupies at least its header, so
there is no room for `2 ^ 64` of them. It rests only on what `mmap` documents (`BlockEnv.Lawful`).

Each operation has one lemma that says what it does to a heap in this invariant; the runs of the
allocator and its clients use those lemmas and do not open the operations again.
-/

namespace FsPkg.Balloc

open Dlink Packing

variable {β : Type}

/-- The address range of a block's element area, as first address and size. -/
def Block.region (b : Block β) : ℕ × ℕ := (b.elems, b.allocSize.toNat)

/-- `mmap` returns an area inside the address space and disjoint from the areas still mapped. -/
def BlockEnv.Lawful (os : BlockEnv) (bh : BlockHeap β) : Prop :=
  ∀ elems, os.mmap = some elems → elems + bh.allocSize.toNat ≤ 2 ^ 64 ∧
    ∀ b ∈ bh.base, Apart (elems, bh.allocSize.toNat) b.region

instance (os : BlockEnv) (bh : BlockHeap β) : Decidable (os.Lawful bh) :=
  inferInstanceAs (Decidable (∀ elems ∈ os.mmap, _ ∧ ∀ b ∈ bh.base, Apart _ _))

/-- An area that is known. -/
theorem BlockEnv.lawful_at {bh : BlockHeap β} {start : ℕ} (calloc : Bool)
    (inside : start + bh.allocSize.toNat ≤ 2 ^ 64)
    (apart : ∀ b ∈ bh.base, Apart (start, bh.allocSize.toNat) b.region) : BlockEnv.Lawful ⟨calloc, some start⟩ bh := by
  intro elems mmap
  cases mmap
  exact ⟨inside, apart⟩

theorem emptyHeap_lawful {elemsize : UInt64} {elemsperblock : Int32} {start : ℕ} (calloc : Bool)
    (inside : start + (emptyHeap elemsize elemsperblock : BlockHeap β).allocSize.toNat ≤ 2 ^ 64) :
    BlockEnv.Lawful ⟨calloc, some start⟩ (emptyHeap elemsize elemsperblock : BlockHeap β) :=
  BlockEnv.lawful_at calloc inside (by simp [emptyHeap])

/-- Both system calls of `blockheap_block_new` succeed. -/
def BlockEnv.Succeeds (os : BlockEnv) : Prop :=
  os.calloc = true ∧ os.mmap.isSome

instance (os : BlockEnv) : Decidable os.Succeeds := inferInstanceAs (Decidable (_ ∧ _))

/-- The two lists of a block share out its headers, and both recorded lengths are right. -/
structure Block.Partitioned (count : ℕ) (b : Block β) : Prop where
  perm : (b.freeList.nodes ++ b.usedList.nodes).Perm (slots b.elems count)
  free : b.freeList.Counted
  used : b.usedList.Counted

/-- The chain itself: well laid out blocks in disjoint areas. -/
structure Layout (bh : BlockHeap β) : Prop where
  positive : 0 < bh.elemsPerBlock.toNat
  fits : bh.elemsPerBlock.toNat * bh.stride ≤ bh.allocSize.toNat
  partitioned : ∀ b ∈ bh.base, b.Partitioned bh.elemsPerBlock.toNat
  sized : ∀ b ∈ bh.base, b.allocSize = bh.allocSize
  inside : ∀ b ∈ bh.base, b.elems + bh.allocSize.toNat ≤ 2 ^ 64
  apart : (bh.base.map Block.region).Pairwise Apart

/-- The representation invariant of `struct BlockHeap`: its counters agree with its chain. -/
structure Invariant (bh : BlockHeap β) : Prop extends Layout bh where
  blocks : bh.blocksAllocated.toNat = bh.base.length
  free : bh.freeElems.toNat = (bh.base.map (·.freeList.nodes.length)).sum

theorem slots_nodup (elems count : ℕ) : (slots elems count).Nodup :=
  List.nodup_range.map fun _ _ equal => (MemBlock.mk.inj equal).2

@[simp] theorem slots_length (elems count : ℕ) : (slots elems count).length = count := by
  simp [slots]

theorem mem_slots {elems count : ℕ} {m : MemBlock} :
    m ∈ slots elems count ↔ m.block = elems ∧ m.index < count := by
  constructor
  · intro member
    obtain ⟨index, inRange, rfl⟩ := List.mem_map.mp member
    exact ⟨rfl, List.mem_range.mp inRange⟩
  · rintro ⟨rfl, bound⟩
    exact List.mem_map.mpr ⟨m.index, List.mem_range.mpr bound, rfl⟩

namespace Block.Partitioned

variable {count : ℕ} {b : Block β}

theorem length_add (part : b.Partitioned count) :
    b.freeList.nodes.length + b.usedList.nodes.length = count := by
  simpa using part.perm.length_eq

theorem nodup (part : b.Partitioned count) : (b.freeList.nodes ++ b.usedList.nodes).Nodup :=
  part.perm.nodup_iff.mpr (slots_nodup _ _)

theorem used_slot (part : b.Partitioned count) {m : MemBlock} (member : m ∈ b.usedList.nodes) :
    m.block = b.elems ∧ m.index < count :=
  mem_slots.mp (part.perm.mem_iff.mp (List.mem_append_right _ member))

theorem not_used_of_free (part : b.Partitioned count) {m : MemBlock}
    (member : m ∈ b.freeList.nodes) : m ∉ b.usedList.nodes :=
  fun used => (List.nodup_append.mp part.nodup).2.2 m member m used rfl

theorem used_length (part : b.Partitioned count) (full : b.freeList.nodes.length = count) :
    b.usedList.nodes = [] := by
  have total := part.length_add
  exact List.length_eq_zero_iff.mp (by omega)

end Block.Partitioned

/-! ## Room in the address space -/

private theorem sum_sizes_const (base : List (Block β)) {size : UInt64}
    (sized : ∀ b ∈ base, b.allocSize = size) :
    ((base.map Block.region).map Prod.snd).sum = base.length * size.toNat := by
  induction base with
  | nil => simp
  | cons b rest ih =>
    have head : b.allocSize = size := sized b (List.mem_cons_self ..)
    have tail := ih fun other member => sized other (List.mem_cons_of_mem _ member)
    simp only [List.map_cons, List.sum_cons, tail, Block.region, head, List.length_cons]
    rw [Nat.add_mul, Nat.one_mul, Nat.add_comm]

theorem sizeofMemBlock_toNat : sizeofMemBlock.toNat = 32 := rfl

/-- Disjoint blocks hold far fewer elements than a counter can count. -/
theorem Layout.capacity {bh : BlockHeap β} (inv : Layout bh) :
    bh.base.length * bh.elemsPerBlock.toNat < 2 ^ 64 := by
  have packed : bh.base.length * bh.allocSize.toNat ≤ 2 ^ 64 := by
    rw [← sum_sizes_const bh.base inv.sized]
    apply sum_sizes_le inv.apart
    intro interval member
    obtain ⟨b, present, rfl⟩ := List.mem_map.mp member
    simpa only [Block.region, inv.sized b present] using inv.inside b present
  have header : bh.elemsPerBlock.toNat * 32 ≤ bh.allocSize.toNat := by
    refine le_trans (Nat.mul_le_mul_left _ ?_) inv.fits
    rw [BlockHeap.stride, sizeofMemBlock_toNat]
    omega
  have elements : bh.base.length * (bh.elemsPerBlock.toNat * 32) ≤ 2 ^ 64 :=
    le_trans (Nat.mul_le_mul_left _ header) packed
  rw [← Nat.mul_assoc] at elements
  omega

/-- Free and used elements together are `blocksAllocated` times `elemsPerBlock`. -/
theorem Invariant.free_add_allocated {bh : BlockHeap β} (inv : Invariant bh) :
    bh.freeElems.toNat + bh.allocated.length = bh.base.length * bh.elemsPerBlock.toNat := by
  rw [inv.free, BlockHeap.allocated, List.length_flatMap]
  have parts := inv.partitioned
  generalize bh.base = base at parts
  induction base with
  | nil => simp
  | cons b rest ih =>
    have head := (parts b (List.mem_cons_self ..)).length_add
    have tail := ih fun other member => parts other (List.mem_cons_of_mem _ member)
    simp only [List.map_cons, List.sum_cons, List.length_cons]
    rw [Nat.add_mul]
    omega

theorem Invariant.freeElems_le {bh : BlockHeap β} (inv : Invariant bh) :
    bh.freeElems.toNat ≤ bh.base.length * bh.elemsPerBlock.toNat := by
  have total := inv.free_add_allocated
  omega

theorem Invariant.elems_nodup {bh : BlockHeap β} (inv : Invariant bh) :
    (bh.base.map Block.elems).Nodup := by
  have nonempty : 0 < bh.allocSize.toNat := by
    have header : 0 < bh.stride := by
      rw [BlockHeap.stride, sizeofMemBlock_toNat]
      omega
    exact lt_of_lt_of_le (Nat.mul_pos inv.positive header) inv.fits
  have apart := List.pairwise_map.mp inv.apart
  refine List.pairwise_map.mpr (apart.imp_of_mem ?_)
  intro left right leftMember rightMember separate
  have leftSize := inv.sized left leftMember
  have rightSize := inv.sized right rightMember
  simp only [Apart, Block.region, leftSize, rightSize] at separate
  omega

/-! ## Live contents -/

theorem mem_allocated {bh : BlockHeap β} {ptr : MemBlock} :
    ptr ∈ bh.allocated ↔ ∃ b ∈ bh.base, ptr ∈ b.usedList.nodes :=
  List.mem_flatMap

/-- What a client may rely on: the contents of an element while it is handed out. -/
def BlockHeap.live (bh : BlockHeap β) (ptr : MemBlock) : Option β :=
  if ptr ∈ bh.allocated then bh.read ptr else none

private theorem find?_elems {base : List (Block β)} (distinct : (base.map Block.elems).Nodup)
    {b : Block β} (member : b ∈ base) :
    base.find? (fun other => decide (other.elems = b.elems)) = some b := by
  induction base with
  | nil => contradiction
  | cons head rest ih =>
    obtain ⟨fresh, tail⟩ := List.nodup_cons.mp distinct
    rcases List.mem_cons.mp member with rfl | inRest
    · simp
    · have other : head.elems ≠ b.elems := by
        intro equal
        exact fresh (equal ▸ List.mem_map_of_mem inRest)
      rw [List.find?_cons_of_neg (by simpa using other)]
      exact ih tail inRest

theorem Invariant.read_eq {bh : BlockHeap β} (inv : Invariant bh) {b : Block β}
    (member : b ∈ bh.base) {ptr : MemBlock} (block : ptr.block = b.elems)
    (bound : ptr.index < bh.elemsPerBlock.toNat) : bh.read ptr = some (b.data ptr.index) := by
  simp only [BlockHeap.read, block, find?_elems inv.elems_nodup member, bind, Option.bind_some,
    if_pos bound]

/-- An element is live with a value exactly when its block keeps it on the `used_list` with it. -/
theorem Invariant.live_eq_some_iff {bh : BlockHeap β} (inv : Invariant bh) {ptr : MemBlock} {value : β} :
    bh.live ptr = some value ↔
      ∃ b ∈ bh.base, ptr ∈ b.usedList.nodes ∧ b.data ptr.index = value := by
  unfold BlockHeap.live
  constructor
  · intro found
    split at found
    · next member =>
      obtain ⟨b, present, used⟩ := mem_allocated.mp member
      obtain ⟨block, bound⟩ := (inv.partitioned b present).used_slot used
      rw [inv.read_eq present block bound] at found
      exact ⟨b, present, used, Option.some.inj found⟩
    · contradiction
  · rintro ⟨b, present, used, rfl⟩
    obtain ⟨block, bound⟩ := (inv.partitioned b present).used_slot used
    rw [if_pos (mem_allocated.mpr ⟨b, present, used⟩), inv.read_eq present block bound]

theorem Invariant.read_of_live {bh : BlockHeap β} (_inv : Invariant bh) {ptr : MemBlock} {value : β}
    (found : bh.live ptr = some value) : bh.read ptr = some value := by
  unfold BlockHeap.live at found
  split at found
  · exact found
  · contradiction

/-- A pointer into a block is live as that block's `used_list` and contents say. -/
theorem Invariant.live_of_block {bh : BlockHeap β} (inv : Invariant bh) {b : Block β}
    (member : b ∈ bh.base) {ptr : MemBlock} (block : ptr.block = b.elems) :
    bh.live ptr = if ptr ∈ b.usedList.nodes then some (b.data ptr.index) else none := by
  apply Option.ext
  intro value
  rw [inv.live_eq_some_iff]
  constructor
  · rintro ⟨other, present, used, rfl⟩
    have same : other = b := by
      apply List.inj_on_of_nodup_map inv.elems_nodup present member
      exact ((inv.partitioned other present).used_slot used).1.symm.trans block
    rw [← same, if_pos used]
  · intro found
    split at found
    · next used => exact ⟨b, member, used, Option.some.inj found⟩
    · contradiction

theorem Invariant.mem_allocated_iff {bh : BlockHeap β} (inv : Invariant bh) {ptr : MemBlock} :
    ptr ∈ bh.allocated ↔ ∃ value, bh.live ptr = some value := by
  constructor
  · intro member
    obtain ⟨b, present, used⟩ := mem_allocated.mp member
    exact ⟨_, inv.live_eq_some_iff.mpr ⟨b, present, used, rfl⟩⟩
  · rintro ⟨value, found⟩
    obtain ⟨b, present, used, _⟩ := inv.live_eq_some_iff.mp found
    exact mem_allocated.mpr ⟨b, present, used⟩

/-- An element that was just handed out, or stored into, is allocated. -/
theorem Invariant.held {bh : BlockHeap β} (inv : Invariant bh) {earlier : MemBlock → Option β} {ptr : MemBlock}
    {value : β} (live : bh.live = Function.update earlier ptr (some value)) : ptr ∈ bh.allocated := by
  refine inv.mem_allocated_iff.mpr ⟨value, ?_⟩
  rw [live, Function.update_self]

theorem Invariant.live_none_iff {bh : BlockHeap β} (inv : Invariant bh) {ptr : MemBlock} :
    bh.live ptr = none ↔ ptr ∉ bh.allocated := by
  rw [inv.mem_allocated_iff, Option.eq_none_iff_forall_ne_some, not_exists]

/-- No element is handed out twice. -/
theorem Invariant.allocated_nodup {bh : BlockHeap β} (inv : Invariant bh) : bh.allocated.Nodup := by
  refine List.nodup_flatMap.mpr ⟨fun b member => ?_, ?_⟩
  · exact (List.nodup_append.mp (inv.partitioned b member).nodup).2.1
  · apply (List.pairwise_map.mp inv.elems_nodup).imp_of_mem
    intro left right leftMember rightMember different m onLeft onRight
    have first := ((inv.partitioned left leftMember).used_slot onLeft).1
    have second := ((inv.partitioned right rightMember).used_slot onRight).1
    exact different (first.symm.trans second)

section Count

variable {bh bh' : BlockHeap β} {ptr : MemBlock} {value : β}

/-- One element more is handed out. -/
theorem Invariant.allocated_taken (inv : Invariant bh) (inv' : Invariant bh') (fresh : bh.live ptr = none)
    (live : bh'.live = Function.update bh.live ptr (some value)) : bh'.allocated.Perm (ptr :: bh.allocated) := by
  have absent : ptr ∉ bh.allocated := inv.live_none_iff.mp fresh
  apply (List.perm_ext_iff_of_nodup inv'.allocated_nodup (List.nodup_cons.mpr ⟨absent, inv.allocated_nodup⟩)).mpr
  intro other
  rw [inv'.mem_allocated_iff, live, List.mem_cons, inv.mem_allocated_iff]
  by_cases here : other = ptr
  · simp [here]
  · simp [here]

/-- One element is handed back. -/
theorem Invariant.allocated_returned (inv : Invariant bh) (inv' : Invariant bh') (held : ptr ∈ bh.allocated)
    (live : bh'.live = Function.update bh.live ptr none) : bh.allocated.Perm (ptr :: bh'.allocated) := by
  obtain ⟨value, found⟩ := inv.mem_allocated_iff.mp held
  have restored : bh.live = Function.update bh'.live ptr (some value) := by
    rw [live, Function.update_idem, ← found, Function.update_eq_self]
  apply inv'.allocated_taken inv _ restored
  rw [live, Function.update_self]

theorem Invariant.length_allocated_add (inv : Invariant bh) (inv' : Invariant bh') (fresh : bh.live ptr = none)
    (live : bh'.live = Function.update bh.live ptr (some value)) :
    bh'.allocated.length = bh.allocated.length + 1 := by
  rw [(inv.allocated_taken inv' fresh live).length_eq, List.length_cons]

/-- The same elements are handed out. -/
theorem Invariant.allocated_congr (inv : Invariant bh) (inv' : Invariant bh')
    (same : ∀ ptr, bh'.live ptr = none ↔ bh.live ptr = none) : bh'.allocated.Perm bh.allocated := by
  apply (List.perm_ext_iff_of_nodup inv'.allocated_nodup inv.allocated_nodup).mpr
  intro ptr
  rw [← not_iff_not, ← inv'.live_none_iff, ← inv.live_none_iff, same]

theorem Invariant.length_allocated_congr (inv : Invariant bh) (inv' : Invariant bh')
    (same : ∀ ptr, bh'.live ptr = none ↔ bh.live ptr = none) : bh'.allocated.length = bh.allocated.length :=
  (inv.allocated_congr inv' same).length_eq

end Count

/-! ## Replacing one block of the chain -/

section Replace

variable {bh : BlockHeap β} {before after : List (Block β)} {old : Block β}

/-- Changing one block's lists and contents keeps the invariant when the free counter follows. -/
theorem Invariant.replace (inv : Invariant bh) (chain : bh.base = before ++ old :: after)
    (new : Block β) (freeElems : UInt64) (elems : new.elems = old.elems) (size : new.allocSize = old.allocSize)
    (part : new.Partitioned bh.elemsPerBlock.toNat)
    (count : freeElems.toNat + old.freeList.nodes.length =
      bh.freeElems.toNat + new.freeList.nodes.length) :
    Invariant { bh with freeElems, base := before ++ new :: after } := by
  have member : old ∈ bh.base := by simp [chain]
  have others {P : Block β → Prop} (all : ∀ b ∈ bh.base, P b) (here : P new) :
      ∀ b ∈ before ++ new :: after, P b := by
    intro b present
    rcases List.mem_append.mp present with front | back
    · exact all b (by simp [chain, front])
    · rcases List.mem_cons.mp back with rfl | rest
      · exact here
      · exact all b (by simp [chain, rest])
  have region : new.region = old.region := by simp [Block.region, elems, size]
  refine
    { positive := inv.positive
      fits := inv.fits
      partitioned := others inv.partitioned part
      sized := others inv.sized (size.trans (inv.sized old member))
      inside := others inv.inside (elems ▸ inv.inside old member)
      apart := ?_
      blocks := ?_
      free := ?_ }
  · have apart := inv.apart
    simpa only [chain, List.map_append, List.map_cons, region] using apart
  · have blocks := inv.blocks
    simpa only [chain, List.length_append, List.length_cons] using blocks
  · have free := inv.free
    simp only [chain, List.map_append, List.map_cons, List.sum_append, List.sum_cons] at free ⊢
    omega

/-- When the replacement differs from the old block in one element `m` only, so do the live
contents of the heap. -/
theorem Invariant.live_replace (inv : Invariant bh) (chain : bh.base = before ++ old :: after)
    {new : Block β} (elems : new.elems = old.elems) {freeElems : UInt64}
    (kept : Invariant { bh with freeElems, base := before ++ new :: after }) {m : MemBlock}
    (inBlock : m.block = old.elems)
    (used : ∀ ptr, ptr ≠ m → (ptr ∈ new.usedList.nodes ↔ ptr ∈ old.usedList.nodes))
    (data : ∀ index, index ≠ m.index → new.data index = old.data index) :
    BlockHeap.live { bh with freeElems, base := before ++ new :: after } =
      Function.update bh.live m (if m ∈ new.usedList.nodes then some (new.data m.index) else none) := by
  have oldMember : old ∈ bh.base := by simp [chain]
  have newMember : new ∈ before ++ new :: after := by simp
  funext ptr
  by_cases block : ptr.block = old.elems
  · rw [kept.live_of_block newMember (block.trans elems.symm)]
    by_cases same : ptr = m
    · rw [same, Function.update_self]
    · have index : ptr.index ≠ m.index := fun equal =>
        same (by cases ptr; cases m; simp_all)
      rw [Function.update_of_ne same, inv.live_of_block oldMember block]
      simp only [used ptr same, data _ index]
  · have same : ptr ≠ m := by
      rintro rfl
      exact block inBlock
    rw [Function.update_of_ne same]
    apply Option.ext
    intro value
    rw [kept.live_eq_some_iff, inv.live_eq_some_iff]
    constructor
    · rintro ⟨b, present, inUse, value⟩
      have different : b ≠ new := by
        rintro rfl
        exact block (((kept.partitioned b newMember).used_slot inUse).1.trans elems)
      refine ⟨b, ?_, inUse, value⟩
      simp only [List.mem_append, List.mem_cons, different, false_or] at present
      simp only [chain, List.mem_append, List.mem_cons]
      tauto
    · rintro ⟨b, present, inUse, value⟩
      have different : b ≠ old := by
        rintro rfl
        exact block ((inv.partitioned b oldMember).used_slot inUse).1
      refine ⟨b, ?_, inUse, value⟩
      simp only [chain, List.mem_append, List.mem_cons, different, false_or] at present
      simp only [List.mem_append, List.mem_cons]
      tauto

end Replace

end FsPkg.Balloc
