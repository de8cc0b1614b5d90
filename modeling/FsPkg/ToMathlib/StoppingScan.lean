import Mathlib.Data.List.Basic
import Mathlib.Data.List.Nodup
import Mathlib.Data.List.TakeWhile
import Mathlib.Tactic.TypeStar

/-! # Scans that stop at the first bad item

A scan handles the items of a list up to the first one it cannot pass. It handles every wanted item,
and each of them as wanted, exactly when it passes everything up to the last wanted one. Items carry
a tag, so that an item that is handled although nobody wanted it is not confused with another.
-/

namespace FsPkg.Scan

variable {ι α β : Type*}

/-- What a function yields for the items, under their tags. -/
def tagged (f : α → Option β) (items : List (ι × α)) : List (ι × β) :=
  items.filterMap fun item => (f item.2).map (Prod.mk item.1)

/-- The part of what a scan yields that was wanted. -/
def kept [DecidableEq ι] (passes : α → Bool) (yields wants : α → Option β) (items : List (ι × α)) : List (ι × β) :=
  (tagged yields (items.takeWhile fun item => passes item.2)).filter
    fun result => result.1 ∈ (tagged wants items).map Prod.fst

/-- Every wanted item is passed, yields what is wanted, and comes after items that are passed. -/
def Unhindered (passes : α → Bool) (yields wants : α → Option β) (items : List α) : Prop :=
  ∀ before item after, items = before ++ item :: after → (wants item).isSome →
    (∀ other ∈ before, passes other = true) ∧ passes item = true ∧ yields item = wants item

section Lemmas

variable {passes : α → Bool} {yields wants : α → Option β}

theorem tags_subset {f : α → Option β} {items : List (ι × α)} {result : ι × β} (member : result ∈ tagged f items) :
    result.1 ∈ items.map Prod.fst := by
  obtain ⟨item, present, yielded⟩ := List.mem_filterMap.mp member
  obtain ⟨value, -, rfl⟩ := Option.map_eq_some_iff.mp yielded
  exact List.mem_map_of_mem present

theorem unhindered_cons {item : α} {rest : List α} : Unhindered passes yields wants (item :: rest) ↔
    ((wants item).isSome → passes item = true ∧ yields item = wants item) ∧
    ((∃ other ∈ rest, (wants other).isSome) → passes item = true) ∧ Unhindered passes yields wants rest := by
  constructor
  · intro all
    refine ⟨?_, ?_, ?_⟩
    · intro wanted
      exact (all [] item rest rfl wanted).2
    · rintro ⟨other, member, wanted⟩
      obtain ⟨before, after, rfl⟩ := List.append_of_mem member
      exact (all (item :: before) other after rfl wanted).1 item List.mem_cons_self
    · intro before other after split wanted
      obtain ⟨passed, here⟩ := all (item :: before) other after (by rw [split]; rfl) wanted
      exact ⟨fun earlier member => passed earlier (List.mem_cons_of_mem _ member), here⟩
  · rintro ⟨here, first, later⟩ before other after split wanted
    cases before with
    | nil =>
      cases split
      exact ⟨by simp, here wanted⟩
    | cons head before =>
      cases split
      obtain ⟨passed, found⟩ := later before other after rfl wanted
      refine ⟨?_, found⟩
      intro earlier member
      rcases List.mem_cons.mp member with rfl | member
      · exact first ⟨other, by simp, wanted⟩
      · exact passed earlier member

theorem tagged_none {f : α → Option β} {tag : ι} {item : α} (none_ : f item = none) (rest : List (ι × α)) :
    tagged f ((tag, item) :: rest) = tagged f rest := by
  unfold tagged
  rw [List.filterMap_cons, none_]
  rfl

theorem tagged_some {f : α → Option β} {tag : ι} {item : α} {value : β} (some_ : f item = some value)
    (rest : List (ι × α)) : tagged f ((tag, item) :: rest) = (tag, value) :: tagged f rest := by
  unfold tagged
  rw [List.filterMap_cons, some_]
  rfl

private theorem tagged_eq_nil {f : α → Option β} {items : List (ι × α)} :
    tagged f items = [] ↔ ¬ ∃ other ∈ items.map Prod.snd, (f other).isSome := by
  unfold tagged
  simp only [List.filterMap_eq_nil_iff, Option.map_eq_none_iff, List.mem_map, not_exists, not_and,
    Bool.not_eq_true, Option.isSome_eq_false_iff, Option.isNone_iff_eq_none]
  constructor
  · rintro all other ⟨item, member, rfl⟩
    exact all item member
  · intro all item member
    exact all item.2 ⟨item, member, rfl⟩

variable [DecidableEq ι]

/-- No result for a later item carries the tag of an earlier one. -/
private theorem filter_tagged {tag : ι} {rest : List (ι × α)} (fresh : tag ∉ rest.map Prod.fst) (more : List ι) :
    (tagged yields (rest.takeWhile fun item => passes item.2)).filter (fun result => result.1 ∈ tag :: more) =
      (tagged yields (rest.takeWhile fun item => passes item.2)).filter fun result => result.1 ∈ more := by
  apply List.filter_congr
  intro result member
  have inside : result.1 ∈ rest.map Prod.fst :=
    ((List.takeWhile_sublist _).map Prod.fst).subset (tags_subset member)
  have other : result.1 ≠ tag := fun same => fresh (same ▸ inside)
  simp [other]

/-- A scan keeps everything that was wanted exactly if it is unhindered. -/
theorem kept_eq_iff {items : List (ι × α)} (distinct : (items.map Prod.fst).Nodup) :
    kept passes yields wants items = tagged wants items ↔
      Unhindered passes yields wants (items.map Prod.snd) := by
  induction items with
  | nil => exact iff_of_true rfl (by rintro (_ | _) _ _ split <;> contradiction)
  | cons head rest ih =>
    obtain ⟨tag, item⟩ := head
    obtain ⟨fresh, distinct⟩ := List.nodup_cons.mp distinct
    have unwanted : tag ∉ (tagged wants rest).map Prod.fst := by
      intro member
      obtain ⟨result, present, rfl⟩ := List.mem_map.mp member
      have inside := tags_subset present
      exact fresh inside
    rw [List.map_cons, unhindered_cons, ← ih distinct]
    unfold kept
    cases passed : passes item with
    | false =>
      rw [List.takeWhile_cons_of_neg (by simp [passed])]
      cases wanted : wants item with
      | none =>
        rw [tagged_none wanted]
        constructor
        · intro empty
          have nothing : tagged wants rest = [] := empty.symm
          exact ⟨by simp, fun later => absurd later (tagged_eq_nil.mp nothing), by rw [nothing]; simp⟩
        · rintro ⟨-, later, -⟩
          have nothing : tagged wants rest = [] := tagged_eq_nil.mpr fun some_ => Bool.noConfusion (later some_)
          rw [nothing]
          rfl
      | some value =>
        rw [tagged_some wanted]
        exact iff_of_false (by simp [tagged]) fun all => Bool.noConfusion (all.1 rfl).1
    | true =>
      rw [List.takeWhile_cons_of_pos (by simp [passed])]
      cases wanted : wants item with
      | none =>
        rw [tagged_none wanted]
        cases yielded : yields item with
        | none =>
          rw [tagged_none yielded]
          simp
        | some value =>
          rw [tagged_some yielded, List.filter_cons_of_neg (by simpa using unwanted)]
          simp
      | some value =>
        rw [tagged_some wanted, List.map_cons]
        cases yielded : yields item with
        | none =>
          rw [tagged_none yielded, filter_tagged fresh]
          refine iff_of_false ?_ fun all => Option.some_ne_none value (all.1 rfl).2.symm
          -- the tag of this item would have to be found among the others
          intro same
          have member := List.mem_of_mem_filter (same ▸ List.mem_cons_self : (tag, value) ∈ _)
          have inside := tags_subset member
          exact fresh (((List.takeWhile_sublist _).map Prod.fst).subset inside)
        | some other =>
          rw [tagged_some yielded, List.filter_cons_of_pos (by simp), filter_tagged fresh]
          simp

end Lemmas

end FsPkg.Scan
