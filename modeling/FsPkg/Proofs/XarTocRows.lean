import FsPkg.Proofs.XarXmlRoundTrip
import FsPkg.Proofs.XarWalkSpec
import Mathlib.Data.List.Find

/-! # A written archive as `pkg_toc_process` lists it

From an archive in memory to the rows of the loop over what was read back of it: the order of the first files is the
opposite one, and nothing else that the loop asks for has changed.
-/

namespace FsPkg.Xar

open Machine
open Pkg (Text)

section Turned

variable {f : XarFile} (clear : Unambiguous f)
include clear

theorem valueOr_turn (instead key : Text) : valueOr instead f.turn key = valueOr instead f key := by
  rw [valueOr, valueOr, xarPropGet_turn clear]

theorem fileName_turn : fileName f.turn = fileName f := by
  rw [fileName, fileName, xarPropGet_turn clear]

end Turned

/-- Files with one identifier are alike. -/
def IdsUnique (x : Forest XarFile) : Prop :=
  ∀ f ∈ x.preorder, ∀ g ∈ x.preorder, ∀ id, xarAttrGet f none "id".toList = some id →
    xarAttrGet g none "id".toList = some id → f = g

theorem find?_perm {α : Type} {s t : List α} (perm : s.Perm t) {p : α → Bool}
    (unique : ∀ a ∈ s, ∀ b ∈ s, p a → p b → a = b) : s.find? p = t.find? p := by
  cases found : t.find? p with
  | none =>
    rw [List.find?_eq_none] at found ⊢
    exact fun a member => found a (perm.subset member)
  | some b =>
    have member := perm.symm.subset (List.mem_of_find?_eq_some found)
    have holds := List.find?_some found
    obtain ⟨a, first⟩ := Option.isSome_iff_exists.mp (List.find?_isSome.mpr ⟨b, member, holds⟩)
    rw [first, unique a (List.mem_of_find?_eq_some first) b member (List.find?_some first) holds]

section Archive

variable {x : Forest XarFile} (clear : ∀ f ∈ x.preorder, Unambiguous f)
include clear

omit clear in
/-- The files that are read back, each with those above it. -/
theorem visits_turn_perm : (((x.map XarFile.turn).reverseOnto .nil).visits []).Perm
    ((x.visits []).map fun v => (v.1.turn, v.2.map XarFile.turn)) := by
  rw [← Forest.visits_map]
  simpa [Forest.visits] using Forest.visits_reverseOnto_perm (x.map XarFile.turn) .nil

omit clear in
theorem preorder_turn_perm : ((x.map XarFile.turn).reverseOnto .nil).preorder.Perm (x.preorder.map XarFile.turn) := by
  rw [← Forest.map_fst_visits _ [], ← Forest.map_fst_visits x []]
  apply (visits_turn_perm.map Prod.fst).trans
  rw [List.map_map, List.map_map]
  rfl

theorem find?_turn (link : Text) :
    (x.preorder.map XarFile.turn).find? (fun g => xarAttrGet g none "id".toList = some link) =
      (x.preorder.find? fun g => xarAttrGet g none "id".toList = some link).map XarFile.turn := by
  rw [List.find?_map]
  congr 1
  apply List.find?_congr
  intro g member
  rw [Function.comp_apply, xarAttrGet_turn (clear g member)]

/-- A link has the same original. -/
theorem originalOf_turn (unique : IdsUnique x) (link : Text) (f : XarFile) :
    originalOf ((x.map XarFile.turn).reverseOnto .nil) link f.turn = (originalOf x link f).turn := by
  have same : ((x.map XarFile.turn).reverseOnto .nil).preorder.find?
      (fun g => xarAttrGet g none "id".toList = some link) =
      (x.preorder.map XarFile.turn).find? fun g => xarAttrGet g none "id".toList = some link := by
    symm
    apply find?_perm preorder_turn_perm.symm
    intro a member b member' first second
    obtain ⟨f, among, rfl⟩ := List.mem_map.mp member
    obtain ⟨g, among', rfl⟩ := List.mem_map.mp member'
    rw [decide_eq_true_eq, xarAttrGet_turn (clear _ ‹_›)] at first second
    rw [unique f among g among' link first second]
  rw [originalOf, originalOf, same, find?_turn clear]
  cases x.preorder.find? fun g => xarAttrGet g none "id".toList = some link <;> rfl

theorem sizeOf_turn (unique : IdsUnique x) {f : XarFile} (member : f ∈ x.preorder) :
    sizeOf ((x.map XarFile.turn).reverseOnto .nil) f.turn = sizeOf x f := by
  have own := clear f member
  have original : ∀ link, Unambiguous (originalOf x link f) := by
    intro link
    rw [originalOf]
    cases found : x.preorder.find? fun g => xarAttrGet g none "id".toList = some link with
    | none => exact own
    | some g => exact clear g (List.mem_of_find?_eq_some found)
  simp only [sizeOf, xarPropGet_turn own, xarAttrGet_turn own, valueOr_turn own, originalOf_turn clear unique,
    valueOr_turn (original _)]

/-- The row of a file is that of the file which is read back. -/
theorem rowOf_turn (unique : IdsUnique x) {v : XarFile × List XarFile} (visited : v ∈ x.visits []) :
    rowOf ((x.map XarFile.turn).reverseOnto .nil) (v.1.turn, v.2.map XarFile.turn) = rowOf x v := by
  have member : v.1 ∈ x.preorder := x.map_fst_visits [] ▸ List.mem_map_of_mem visited
  have above : ∀ g ∈ v.2, g ∈ x.preorder := fun g inside =>
    (Forest.mem_above_of_mem_visits visited inside).resolve_right List.not_mem_nil
  have own := clear v.1 member
  have names : namesTo v.1.turn (v.2.map XarFile.turn) = namesTo v.1 v.2 := by
    simp only [namesTo, List.map_append, List.map_reverse, List.map_map, List.map_cons, List.map_nil, fileName_turn own]
    congr 2
    apply List.map_congr_left
    intro g inside
    rw [Function.comp_apply, fileName_turn (clear g (above g inside))]
  have type : xarGetType v.1.turn = xarGetType v.1 := valueOr_turn own _ _
  rw [rowOf, rowOf, names, type, sizeOf_turn clear unique member, xarPropGet_turn own, xarGetOwner, xarGetOwner,
    xarGetGroup, xarGetGroup, valueOr_turn own, valueOr_turn own]

theorem namesVisible_turn (visible : NamesVisible x) : NamesVisible ((x.map XarFile.turn).reverseOnto .nil) := by
  intro f member text named
  obtain ⟨g, among, rfl⟩ := List.mem_map.mp (preorder_turn_perm.subset member)
  rw [fileName_turn (clear g among)] at named
  exact visible g among text named

theorem named_turn : (∀ f ∈ ((x.map XarFile.turn).reverseOnto .nil).preorder, (fileName f).isSome) ↔
    ∀ f ∈ x.preorder, (fileName f).isSome := by
  apply Iff.intro
  · intro all f member
    rw [← fileName_turn (clear f member)]
    exact all _ (preorder_turn_perm.symm.subset (List.mem_map_of_mem member))
  · intro all f member
    obtain ⟨g, among, rfl⟩ := List.mem_map.mp (preorder_turn_perm.subset member)
    rw [fileName_turn (clear g among)]
    exact all g among

end Archive

theorem nameArchive_preorder : nameArchive.files.preorder = [euroDirectory, euroFile, euroLink] := rfl

end FsPkg.Xar
