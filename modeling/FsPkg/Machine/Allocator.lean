import Mathlib.Logic.Function.Basic

/-! # An abstract allocator

The purpose of any element allocator, independently of how it finds memory: a partial map from
addresses to the contents of the elements in use. There is no operation for reorganising memory;
an implementation that does so has to do it without any effect here.
-/

namespace FsPkg.Allocator

variable {α β : Type*} [DecidableEq α]

/-- What a client asks for, with the address it is given. -/
inductive Event (α β : Type*) where
  | alloc (ptr : α)
  | exhausted
  | free (ptr : α)
  | write (ptr : α) (value : β)

/-- Allocation hands out an address that is not in use, with zeroed contents; the other events
concern an address in use. Running out of memory changes nothing. -/
inductive Step (zero : β) : (α → Option β) → Event α β → (α → Option β) → Prop
  | alloc {store : α → Option β} {ptr : α} (fresh : store ptr = none) :
      Step zero store (.alloc ptr) (Function.update store ptr (some zero))
  | exhausted {store : α → Option β} : Step zero store .exhausted store
  | free {store : α → Option β} {ptr : α} (used : store ptr ≠ none) :
      Step zero store (.free ptr) (Function.update store ptr none)
  | write {store : α → Option β} {ptr : α} {value : β} (used : store ptr ≠ none) :
      Step zero store (.write ptr value) (Function.update store ptr (some value))

end FsPkg.Allocator
