import FsPkg.Model.XarTree
import Mathlib.Data.List.DropRight

/-! # Walks over an archive

The iterators of `xar/filetree.c` go to the first child, else to the next sibling, else back to the parent, whose
children they then leave out; the path of the parents is kept as text. `xar/util.c` reads what `pkg_toc_process` of
`pkg_toc.c` asks of every file. Where the source follows a null pointer or copies a null string there is no result.
-/

namespace FsPkg.Xar

open Machine
open Pkg (Text)

/-! ## Iterators -/

/-- The slashes `dirname` leaves of a path that has nothing else in front of its last name. -/
def dirnameRoot (path : Text) : Text :=
  if (path.takeWhile (· = '/')).length = 2 then ['/', '/'] else ['/']

/-- `dirname`. -/
def dirname (path : Text) : Text :=
  let stripped := path.rdropWhile (· = '/')
  if path = [] then ['.']
  else if stripped = [] then dirnameRoot path
  else if '/' ∈ stripped then
    let up := (stripped.rdropWhile (· ≠ '/')).rdropWhile (· = '/')
    if up = [] then dirnameRoot path else up
  else ['.']

/-- What `%s` prints of a null pointer. -/
def nullText : Text := "(null)".toList

/-- `struct __xar_iter_t`, but for `node`. -/
structure XarIter (α : Type) where
  iter : Cursor α
  path : Option Text := none
  nochild : Bool := false

namespace XarIter

variable {α : Type}

/-- What the iterator has still to visit. -/
def rest (i : XarIter α) : List (α × List α) :=
  if i.nochild then i.iter.next.pending i.iter.ups else i.iter.remaining

/-- What is still to visit, with the node itself. -/
def left : Option (XarIter α) → List (α × List α)
  | some i => (i.iter.label, i.iter.above) :: i.rest
  | none => []

/-- The first child, if children are not left out. -/
def child (i : XarIter α) : Option (Cursor α) := if i.nochild then none else i.iter.down

theorem rest_child {i : XarIter α} {c : Cursor α} (down : i.child = some c) :
    i.rest = (c.label, c.above) :: c.remaining ∧ c.above = i.iter.label :: i.iter.above := by
  unfold child at down
  split_ifs at down with flag
  obtain ⟨above, remaining⟩ := Cursor.remaining_down down
  exact ⟨by rw [rest, if_neg flag, remaining], above⟩

theorem ups_child {i : XarIter α} {c : Cursor α} (down : i.child = some c) :
    c.ups = (i.iter.label, i.iter.next) :: i.iter.ups := by
  unfold child at down
  split_ifs at down
  exact Cursor.ups_down down

theorem rest_no_child {i : XarIter α} (leaf : i.child = none) : i.rest = i.iter.next.pending i.iter.ups := by
  unfold child at leaf
  unfold rest
  split_ifs at leaf ⊢ with flag
  · rfl
  · rw [Cursor.remaining, Cursor.down_eq_none.mp leaf]
    rfl

theorem rest_right {i : XarIter α} (leaf : i.child = none) {c : Cursor α} (right : i.iter.right = some c) :
    i.rest = (c.label, c.above) :: c.remaining := by
  rw [rest_no_child leaf, (Cursor.pending_right right).1]

theorem rest_above {i : XarIter α} (leaf : i.child = none) (last : i.iter.right = none) {parent : α} {next : Forest α}
    {ups : List (α × Forest α)} (above : i.iter.ups = (parent, next) :: ups) : i.rest = next.pending ups := by
  rw [rest_no_child leaf, Cursor.right_eq_none.mp last, above]
  rfl

theorem rest_top {i : XarIter α} (leaf : i.child = none) (last : i.iter.right = none) (top : i.iter.ups = []) :
    i.rest = [] := by
  rw [rest_no_child leaf, Cursor.right_eq_none.mp last, top]
  rfl

end XarIter

/-- `asprintf(&path, "%s/%s", tmp, name)`, or `strdup(name)` if there is no path. -/
def pathBelow (path name : Option Text) : Option Text :=
  match path with
  | some tmp => some (tmp ++ '/' :: name.getD nullText)
  | none => name

/-- The path of the parent. A null pointer is searched for a slash only if there is none. -/
def pathAbove (path : Option Text) : Option (Option Text) :=
  path.map fun path => if '/' ∈ path then some (dirname path) else none

/-- `xar_prop_next` and `xar_file_next`, given the name a node adds to the path: no result is a fault, and `some none`
the null pointer at the end. -/
def xarNext {α : Type} (name : α → Option Text) (i : XarIter α) : Option (Option (XarIter α)) :=
  match i.child with
  | some child => do
    let path ← pathBelow i.path (name i.iter.label)
    some (some { iter := child, path := some path })
  | none =>
    match i.iter.right with
    | some sibling => some (some { iter := sibling, path := i.path })
    | none =>
      match _above : i.iter.ups with
      | [] => some none
      | (parent, next) :: ups =>
        match pathAbove i.path with
        | none => none
        | some path => xarNext name { iter := ⟨parent, .nil, next, ups⟩, path, nochild := true }
termination_by i.iter.ups.length
decreasing_by simp [_above]

section Next

variable {α : Type} {name : α → Option Text} {i : XarIter α}

theorem xarNext_child {c : Cursor α} (down : i.child = some c) :
    xarNext name i = (pathBelow i.path (name i.iter.label)).map fun path => some { iter := c, path := some path } := by
  rw [xarNext, down]
  cases pathBelow i.path (name i.iter.label) <;> rfl

theorem xarNext_right {c : Cursor α} (leaf : i.child = none) (right : i.iter.right = some c) :
    xarNext name i = some (some { iter := c, path := i.path }) := by
  rw [xarNext, leaf, right]

theorem xarNext_top (leaf : i.child = none) (last : i.iter.right = none) (top : i.iter.ups = []) :
    xarNext name i = some none := by
  rw [xarNext]
  simp only [leaf, last]
  split
  · rfl
  · simp_all

theorem xarNext_above (leaf : i.child = none) (last : i.iter.right = none) {parent : α} {next : Forest α}
    {ups : List (α × Forest α)} (above : i.iter.ups = (parent, next) :: ups) :
    xarNext name i = (pathAbove i.path).bind fun path =>
      xarNext name { iter := ⟨parent, .nil, next, ups⟩, path, nochild := true } := by
  rw [xarNext]
  simp only [leaf, last]
  split
  · simp_all
  · next same =>
    rw [above, List.cons.injEq, Prod.mk.injEq] at same
    obtain ⟨⟨rfl, rfl⟩, rfl⟩ := same
    cases pathAbove i.path <;> rfl

/-- What follows is visited from its front on, and the end is reached only when nothing follows. -/
theorem xarNext_rest {next : Option (XarIter α)} (step : xarNext name i = some next) :
    i.rest = XarIter.left next := by
  induction i using xarNext.induct with
  | case1 i child down =>
    rw [xarNext_child down] at step
    obtain ⟨path, -, rfl⟩ := Option.map_eq_some_iff.mp step
    exact (XarIter.rest_child down).1
  | case2 i leaf sibling right =>
    rw [xarNext_right leaf right] at step
    obtain rfl := Option.some.inj step
    exact XarIter.rest_right leaf right
  | case3 i leaf last top =>
    rw [xarNext_top leaf last top] at step
    obtain rfl := Option.some.inj step
    exact XarIter.rest_top leaf last top
  | case4 i leaf last parent after ups above lost =>
    rw [xarNext_above leaf last above, lost] at step
    cases step
  | case5 i leaf last parent after ups above path found climb =>
    rw [xarNext_above leaf last above, found] at step
    rw [XarIter.rest_above leaf last above]
    exact climb step

end Next

/-- `xar_prop_first`: with no property it follows a null pointer. -/
def xarPropFirst (props : XarProps) : Option (XarIter XarProp) :=
  (Cursor.first props).map fun c => { iter := c }

/-- `xar_prop_next`. -/
def xarPropNext (i : XarIter XarProp) : Option (Option (XarIter XarProp)) := xarNext (fun p => some p.key) i

/-- The text both calls return for a property. -/
def propNode (i : XarIter XarProp) : Text :=
  match i.path with
  | some path => path ++ '/' :: i.iter.label.key
  | none => i.iter.label.key

/-- The texts `xar_prop_next` returns from a property on, itself included. -/
def propNodes (p : Option (XarIter XarProp)) : Option (List Text) :=
  match p with
  | none => some []
  | some i =>
    match _step : xarPropNext i with
    | none => none
    | some next => (propNodes next).map (propNode i :: ·)
termination_by (XarIter.left p).length
decreasing_by
  rw [← xarNext_rest _step]
  exact Nat.lt_succ_self _

/-- All the texts `xar_prop_first` and then `xar_prop_next` return for a file. -/
def xarPropKeys (f : XarFile) : Option (List Text) :=
  (xarPropFirst f.props).bind fun first => propNodes (some first)

/-- `xar_prop_get(f, "name", &name)`. -/
def fileName (f : XarFile) : Option Text := (xarPropGet f "name".toList).join

/-- `xar_file_first`. -/
def xarFileFirst (files : Forest XarFile) : Option (XarIter XarFile) :=
  (Cursor.first files).map fun c => { iter := c }

/-- `xar_file_next`. -/
def xarFileNext (i : XarIter XarFile) : Option (Option (XarIter XarFile)) := xarNext fileName i

/-! ## What is asked of a file -/

/-- `xar_get_path`. -/
def xarGetPath (c : Cursor XarFile) : Option Text := do
  let name ← fileName c.label
  some (c.above.foldl (fun tmp i => (fileName i).getD nullText ++ '/' :: tmp) name)

/-- The value of a property, or what stands for a null pointer. -/
def valueOr (instead : Text) (f : XarFile) (key : Text) : Text := (xarPropGet f key).join.getD instead

/-- `xar_get_type`. -/
def xarGetType (f : XarFile) : Text := valueOr "unknown".toList f "type".toList

/-- `xar_get_owner`. -/
def xarGetOwner (f : XarFile) : Text := valueOr "unknown".toList f "user".toList

/-- `xar_get_group`. -/
def xarGetGroup (f : XarFile) : Text := valueOr "unknown".toList f "group".toList

/-- The loop of `xar_get_size` over all files, from one on: the file with an identifier. -/
def linkedFile (link : Text) (f : Option (XarIter XarFile)) : Option (Option XarFile) :=
  match f with
  | none => some none
  | some tmpf =>
    if xarAttrGet tmpf.iter.label none "id".toList = some link then some (some tmpf.iter.label)
    else
      match _step : xarFileNext tmpf with
      | none => none
      | some next => linkedFile link next
termination_by (XarIter.left f).length
decreasing_by
  rw [← xarNext_rest _step]
  exact Nat.lt_succ_self _

/-- `xar_get_size`. -/
def xarGetSize (x : Forest XarFile) (f : XarFile) : Option Text := do
  let size f := valueOr ['0'] f "data/size".toList
  if (xarPropGet f "type".toList).join = some "hardlink".toList then
    match xarAttrGet f (some "type".toList) "link".toList with
    | none => some (size f)
    | some link =>
      if link = "original".toList then some (size f)
      else
        let original ← linkedFile link (xarFileFirst x)
        some (size (original.getD f))
  else some (size f)

/-! ## The loop of `pkg_toc_process` -/

/-- `strcasecmp`, for equality. -/
def sameCase (s t : Text) : Bool := s.map Char.toLower = t.map Char.toLower

/-- What the loop has of a file before it frees it all. -/
structure TocRow where
  path : Text
  xtype : Text
  type : Char
  size : Text
  user : Text
  group : Text
  /-- The property itself for a file, and then maybe a null pointer. -/
  offset : Option Text
deriving DecidableEq, Repr

/-- The type character. -/
def typeChar (xtype : Text) : Char :=
  if sameCase xtype "file".toList then 'f'
  else if sameCase xtype "directory".toList then 'd'
  else if sameCase xtype "hardlink".toList then 'l'
  else if sameCase xtype "symlink".toList then 'l'
  else 'u'

/-- The body of the loop, without the mode and the time it asks for. -/
def tocRow (x : Forest XarFile) (f : XarIter XarFile) : Option TocRow := do
  let size ← xarGetSize x f.iter.label
  let path ← xarGetPath f.iter
  let xtype := xarGetType f.iter.label
  let user := xarGetOwner f.iter.label
  let group := xarGetGroup f.iter.label
  let offset :=
    if sameCase xtype "file".toList then (xarPropGet f.iter.label "data/offset".toList).join else some ['0']
  some { path, xtype, type := typeChar xtype, size, user, group, offset }

/-- The loop from a file on. -/
def tocRows (x : Forest XarFile) (f : Option (XarIter XarFile)) : Option (List TocRow) :=
  match f with
  | none => some []
  | some i => do
    let row ← tocRow x i
    match _step : xarFileNext i with
    | none => none
    | some next => return row :: (← tocRows x next)
termination_by (XarIter.left f).length
decreasing_by
  rw [← xarNext_rest _step]
  exact Nat.lt_succ_self _

/-- The loop of `pkg_toc_process` with `CONFIG_TOC_LIBXAR`: no result is a fault. -/
def pkgTocFiles (x : Forest XarFile) : Option (List TocRow) := tocRows x (xarFileFirst x)

end FsPkg.Xar
