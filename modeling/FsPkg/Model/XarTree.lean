import FsPkg.Machine.PathForest
import FsPkg.Model.PkgCache
import Mathlib.Data.List.TakeWhile

/-! # The file tree of `xar/filetree.c`

The records of `filetree.c` hold a first child and a next sibling, so they are forests. A key with slashes names a
property below others.
-/

namespace FsPkg.Xar

open Machine
open Pkg (Text)

/-! ## Attributes -/

/-- `struct __xar_attr_t`; the list goes from the head on. -/
structure XarAttr where
  key : Text
  value : Text
  ns : Option Text := none
deriving DecidableEq, Repr

/-- The loop of `xar_attr_pset`: the last attribute of the list is not looked at. -/
def attrOverwrite (key value : Text) : List XarAttr → Option (List XarAttr)
  | a :: b :: attrs =>
    if a.key = key then some ({ a with value := value } :: b :: attrs)
    else (attrOverwrite key value (b :: attrs)).map (a :: ·)
  | _ => none

/-- `xar_attr_pset`. -/
def xarAttrPset (key value : Text) (attrs : List XarAttr) : List XarAttr :=
  (attrOverwrite key value attrs).getD ({ key, value } :: attrs)

/-- `xar_attr_pget`: its loop looks at all but the last attribute, and what follows it at the last. -/
def xarAttrPget (key : Text) (attrs : List XarAttr) : Option Text :=
  (attrs.find? fun a => a.key = key).map XarAttr.value

/-! ## Keys -/

/-- `strsep(&s, "/")`: the token, and what `s` points at afterwards. -/
def strsep (s : Text) : Text × Option Text :=
  (s.takeWhile (· ≠ '/'), if '/' ∈ s then some (s.dropWhile (· ≠ '/')).tail else none)

theorem strsep_length {s token rest : Text} (split : strsep s = (token, some rest)) : rest.length < s.length := by
  simp only [strsep, Prod.mk.injEq] at split
  obtain ⟨-, split⟩ := split
  split_ifs at split with slash
  obtain rfl := Option.some.inj split
  have shorter := (s.dropWhile_sublist (· ≠ '/')).length_le
  have positive : 0 < (s.dropWhile (· ≠ '/')).length := by
    rw [List.length_pos_iff, ne_eq, List.dropWhile_eq_nil_iff]
    exact fun none => by simpa using none '/' slash
  rw [List.length_tail]
  omega

/-! ## Properties -/

/-- `struct __xar_prop_t`, but for its pointers. -/
structure XarProp where
  key : Text
  value : Option Text := none
  attrs : List XarAttr := []
  pfx : Option Text := none
deriving DecidableEq, Repr

/-- A list of properties, as its head. -/
abbrev XarProps := Forest XarProp

/-- `struct __xar_file_t`, but for its pointers and the prefix, which is never set. -/
structure XarFile where
  attrs : List XarAttr := []
  props : XarProps := .nil
deriving DecidableEq, Repr

/-- `xar_prop_find`: the property, with what is below it. -/
def xarPropFind (props : XarProps) (key : Text) : Option (XarProp × XarProps) :=
  match _split : strsep key with
  | (token, none) => props.sibling XarProp.key token
  | (token, some rest) =>
    match props.sibling XarProp.key token with
    | none => none
    | some (_, children) => xarPropFind children rest
termination_by key.length
decreasing_by exact strsep_length _split

/-- `xar_prop_new`, with `xar_prop_setkey` and `xar_prop_setvalue`: a new property goes to the head of its list. -/
def xarPropNew (props : XarProps) (key : Text) (value : Option Text) (children : XarProps) : XarProps :=
  .node { key, value } children props

/-- `xar_prop_setvalue`: a null pointer leaves the property what it has. If that is a text it has just been freed, and
there is no result, as the property points at freed memory from then on. -/
def xarPropSetvalue (value : Option Text) (p : XarProp) : Option XarProp :=
  match value, p.value with
  | some value, _ => some { p with value := some value }
  | none, none => some p
  | none, some _ => none

/-- `xar_prop_set_r`, on the list of the properties below its parent. -/
def xarPropSetR (overwrite : Bool) (value : Option Text) (props : XarProps) (key : Text) : Option XarProps :=
  match _split : strsep key with
  | (token, none) =>
    match props.sibling XarProp.key token with
    | some (p, children) =>
      if overwrite then
        (xarPropSetvalue value p).map fun p => props.alter XarProp.key token fun _ _ => (p, children)
      else some (xarPropNew props token value .nil)
    | none => some (xarPropNew props token value .nil)
  | (token, some rest) =>
    match props.sibling XarProp.key token with
    | some (p, children) =>
      (xarPropSetR overwrite value children rest).map fun children =>
        props.alter XarProp.key token fun _ _ => (p, children)
    | none => (xarPropSetR overwrite value .nil rest).map (xarPropNew props token none)
termination_by key.length
decreasing_by all_goals exact strsep_length _split

/-- `xar_prop_set`. -/
def xarPropSet (f : XarFile) (key : Text) (value : Option Text) : Option XarFile :=
  (xarPropSetR true value f.props key).map fun props => { f with props }

/-- `xar_prop_create`. -/
def xarPropCreate (f : XarFile) (key : Text) (value : Option Text) : Option XarFile :=
  (xarPropSetR false value f.props key).map fun props => { f with props }

/-- `xar_prop_get`: no result is -1, and then the value is a null pointer as well. -/
def xarPropGet (f : XarFile) (key : Text) : Option (Option Text) :=
  (xarPropFind f.props key).map fun found => found.1.value

/-- Change the list that holds the property `xar_prop_find` finds. -/
def xarPropAmid (change : Text → XarProps → XarProps) (props : XarProps) (key : Text) : XarProps :=
  match _split : strsep key with
  | (token, none) => change token props
  | (token, some rest) => props.alter XarProp.key token fun p children => (p, xarPropAmid change children rest)
termination_by key.length
decreasing_by exact strsep_length _split

/-- `xar_prop_unset`: `xar_prop_punset` takes what is found, the first with its key, off its list. -/
def xarPropUnset (f : XarFile) (key : Text) : XarFile :=
  { f with props := xarPropAmid (fun token props => props.remove XarProp.key token) f.props key }

/-- `xar_attr_set`: -1, and nothing changed, if the property is not found. -/
def xarAttrSet (f : XarFile) (prop : Option Text) (key value : Text) : Int32 × XarFile :=
  match prop with
  | none => (0, { f with attrs := xarAttrPset key value f.attrs })
  | some prop =>
    match xarPropFind f.props prop with
    | none => (-1, f)
    | some _ =>
      let pset (p : XarProp) := { p with attrs := xarAttrPset key value p.attrs }
      let change token (props : XarProps) := props.alter XarProp.key token fun p children => (pset p, children)
      (0, { f with props := xarPropAmid change f.props prop })

/-- `xar_attr_get`. -/
def xarAttrGet (f : XarFile) (prop : Option Text) (key : Text) : Option Text :=
  match prop with
  | none => xarAttrPget key f.attrs
  | some prop => (xarPropFind f.props prop).bind fun found => xarAttrPget key found.1.attrs

/-- `xar_prop_replicate_r`, given what the new parent holds so far. -/
def xarPropReplicateR : XarProps → XarProps → XarProps
  | .nil, copied => copied
  | .node p children next, copied =>
    let attrs := p.attrs.map fun a => { key := a.key, value := a.value }
    xarPropReplicateR next (.node { key := p.key, value := p.value, attrs } (xarPropReplicateR children .nil) copied)

/-- `xar_file_replicate`. -/
def xarFileReplicate (original : XarFile) : XarFile :=
  let kept := original.attrs.filter fun a => a.key ≠ "id".toList
  let ret := kept.foldl (fun (ret : XarFile) a => (xarAttrSet ret none a.key a.value).2) {}
  { ret with props := xarPropReplicateR original.props ret.props }

end FsPkg.Xar
