import Mathlib.Data.UInt
import Mathlib.Tactic.TypeStar

/-! # Records in memory

Memory is a function from addresses to bytes. `Holds` says that a list of bytes lies at an address;
reading a number or a string there depends on those bytes alone.
-/

namespace FsPkg.Machine

abbrev Memory := ℕ → UInt8

/-- The bytes lie at the address. -/
def Holds (mem : Memory) (addr : ℕ) (bytes : List UInt8) : Prop :=
  ∀ k (bound : k < bytes.length), mem (addr + k) = bytes[k]

section Holds

variable {mem : Memory} {addr : ℕ} {first rest : List UInt8} {byte : UInt8}

theorem holds_append : Holds mem addr (first ++ rest) ↔
    Holds mem addr first ∧ Holds mem (addr + first.length) rest := by
  constructor
  · intro holds
    constructor
    · intro k bound
      rw [holds k (by rw [List.length_append]; omega), List.getElem_append_left bound]
    · intro k bound
      rw [Nat.add_assoc, holds (first.length + k) (by rw [List.length_append]; omega),
        List.getElem_append_right (by omega)]
      simp
  · rintro ⟨left, right⟩ k bound
    rw [List.length_append] at bound
    by_cases inside : k < first.length
    · rw [List.getElem_append_left inside, left k inside]
    · rw [List.getElem_append_right (by omega), ← right (k - first.length) (by omega)]
      congr 1
      omega

theorem holds_cons : Holds mem addr (byte :: rest) ↔ mem addr = byte ∧ Holds mem (addr + 1) rest := by
  rw [← List.singleton_append, holds_append]
  refine and_congr_left fun _ => ⟨fun holds => holds 0 (by simp), ?_⟩
  intro here k bound
  obtain rfl : k = 0 := by simpa using bound
  exact here

/-- Memory with the bytes at its beginning, and nothing behind them. -/
def image (bytes : List UInt8) : Memory := fun addr => bytes.getD addr 0

theorem holds_image (bytes : List UInt8) : Holds (image bytes) 0 bytes := by
  intro k bound
  rw [image, Nat.zero_add, List.getD_eq_getElem?_getD, List.getElem?_eq_getElem bound, Option.getD_some]

end Holds

/-! ## Numbers of four bytes, low byte first -/

def bytes32 (n : UInt32) : List UInt8 :=
  [UInt8.ofNat n.toNat, UInt8.ofNat (n.toNat / 2 ^ 8), UInt8.ofNat (n.toNat / 2 ^ 16),
    UInt8.ofNat (n.toNat / 2 ^ 24)]

def load32 (mem : Memory) (addr : ℕ) : UInt32 :=
  UInt32.ofNat ((mem addr).toNat + 2 ^ 8 * (mem (addr + 1)).toNat + 2 ^ 16 * (mem (addr + 2)).toNat +
    2 ^ 24 * (mem (addr + 3)).toNat)

@[simp] theorem length_bytes32 (n : UInt32) : (bytes32 n).length = 4 := rfl

theorem load32_of_holds {mem : Memory} {addr : ℕ} {n : UInt32} (holds : Holds mem addr (bytes32 n)) :
    load32 mem addr = n := by
  have bound := n.toNat_lt
  simp only [bytes32, holds_cons, Nat.add_assoc, Nat.reduceAdd] at holds
  obtain ⟨b0, b1, b2, b3, -⟩ := holds
  rw [load32, b0, b1, b2, b3, ← UInt32.toNat_inj]
  simp only [UInt8.toNat_ofNat', UInt32.toNat_ofNat']
  omega

/-! ## Strings -/

/-- The bytes before the first zero byte, at most so many. -/
def loadString (mem : Memory) : ℕ → ℕ → List UInt8
  | _, 0 => []
  | addr, fuel + 1 => if mem addr = 0 then [] else mem addr :: loadString mem (addr + 1) fuel

/-- A field that is terminated is read up to its terminator. -/
theorem loadString_of_holds {mem : Memory} {addr fuel : ℕ} {field : List UInt8} (holds : Holds mem addr field)
    (terminated : 0 ∈ field) (room : field.length ≤ fuel) :
    loadString mem addr fuel = field.takeWhile (· ≠ 0) := by
  induction field generalizing addr fuel with
  | nil => contradiction
  | cons byte rest ih =>
    obtain ⟨here, later⟩ := holds_cons.mp holds
    obtain ⟨fuel, rfl⟩ : ∃ smaller, fuel = smaller + 1 := ⟨fuel - 1, by simp at room; omega⟩
    rw [loadString, here]
    by_cases zero : byte = 0
    · simp [zero]
    · have more : 0 ∈ rest := by simpa [Ne.symm zero] using terminated
      rw [if_neg zero, ih later more (by simpa using room)]
      simp [zero]

end FsPkg.Machine
