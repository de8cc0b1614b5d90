import FsPkg.Proofs.XarPaths
import FsPkg.Proofs.XarTreeRuns

/-! # What walks over an archive visit

Going up, an iterator takes a part off its path and must not run out of them: it does not if every name on the path has
a part. Then it visits the nodes in pre-order and ends. The loop of `pkg_toc_process` needs a name of every file,
whatever else is missing, and the keys listed for a file are the keys it answers to.
-/

namespace FsPkg.Xar

open Machine
open Pkg (Text)

/-! ## Steps that do not fault -/

/-- A name that is not only slashes. -/
def Visible (name : Text) : Prop := ∃ c ∈ name, c ≠ '/'

instance : DecidablePred Visible := List.decidableBEx (· ≠ '/')

section Next

variable {α : Type} {name : α → Option Text} {i : XarIter α}

/-- The path has a part for every node above. -/
def Deep (i : XarIter α) : Prop := i.iter.ups.length ≤ (parts (i.path.getD [])).length

theorem pathAbove_deep {path : Option Text} {n : ℕ} (deep : n + 1 ≤ (parts (path.getD [])).length) :
    ∃ up, pathAbove path = some up ∧ n ≤ (parts (up.getD [])).length := by
  cases path with
  | none => simp [parts] at deep
  | some path =>
    by_cases slash : '/' ∈ path
    · have fewer := length_parts_dirname slash
      rw [Option.getD_some] at deep
      exact ⟨some (dirname path), by simp [pathAbove, slash], by rw [Option.getD_some]; omega⟩
    · have one := parts_of_no_slash slash
      rw [Option.getD_some] at deep
      exact ⟨none, by simp [pathAbove, slash], by omega⟩

theorem xarNext_leaf (leaf : i.child = none) (deep : Deep i) :
    ∃ next, xarNext name i = some next ∧ ∀ j, next = some j → Deep j := by
  induction i using xarNext.induct with
  | case1 i child down => simp [leaf] at down
  | case2 i _ sibling right =>
    refine ⟨_, xarNext_right leaf right, ?_⟩
    rintro j ⟨⟩
    unfold Deep
    rw [Cursor.ups_right right]
    exact deep
  | case3 i _ last top => exact ⟨none, xarNext_top leaf last top, by simp⟩
  | case4 i _ last parent after ups above lost =>
    unfold Deep at deep
    rw [above, List.length_cons] at deep
    obtain ⟨up, found, -⟩ := pathAbove_deep deep
    simp [lost] at found
  | case5 i _ last parent after ups above path found climb =>
    unfold Deep at deep
    rw [above, List.length_cons] at deep
    obtain ⟨up, same, shallow⟩ := pathAbove_deep deep
    obtain rfl := Option.some.inj (found.symm.trans same)
    rw [xarNext_above leaf last above, found]
    exact climb rfl shallow

/-- Where a name has a part, no step faults. -/
theorem xarNext_deep (deep : Deep i) {text : Text} (named : name i.iter.label = some text) (visible : Visible text) :
    ∃ next, xarNext name i = some next ∧ ∀ j, next = some j → Deep j := by
  cases down : i.child with
  | none => exact xarNext_leaf down deep
  | some child =>
    have more := length_parts_pos visible
    have ups : child.ups.length = i.iter.ups.length + 1 := by rw [XarIter.ups_child down, List.length_cons]
    unfold Deep at deep
    rw [xarNext_child down, named]
    cases path : i.path with
    | none =>
      rw [path, Option.getD_none, show parts [] = [] from rfl] at deep
      refine ⟨_, rfl, ?_⟩
      rintro j ⟨⟩
      simp only [Deep, ups, Option.getD_some]
      exact Nat.le_trans (Nat.succ_le_succ deep) more
    | some tmp =>
      rw [path, Option.getD_some] at deep
      refine ⟨_, rfl, ?_⟩
      rintro j ⟨⟩
      simp only [Deep, ups, Option.getD_some, parts_append, List.length_append]
      exact Nat.add_le_add deep more

/-- A walk ends: it may be assumed for what the next step gives. -/
theorem walk_induction (name : α → Option Text) {motive : Option (XarIter α) → Prop} (stop : motive none)
    (step : ∀ i, (∀ next, xarNext name i = some next → motive next) → motive (some i)) (f : Option (XarIter α)) :
    motive f := by
  induction size : (XarIter.left f).length using Nat.strongRecOn generalizing f with
  | ind n shorter =>
    cases f with
    | none => exact stop
    | some i =>
      apply step
      intro next moved
      rw [XarIter.left, List.length_cons, xarNext_rest moved] at size
      exact shorter _ (size ▸ Nat.lt_succ_self _) next rfl

end Next

/-! ## The loop of `pkg_toc_process` -/

/-- Every file has a name that is not only slashes. -/
def Named (x : Forest XarFile) : Prop := ∀ f ∈ x.preorder, ∃ text, fileName f = some text ∧ Visible text

/-- The archive has no file with an empty name, or one of slashes. -/
def NamesVisible (x : Forest XarFile) : Prop := ∀ f ∈ x.preorder, ∀ text ∈ fileName f, Visible text

/-- The original of a link: the first file with its identifier, or the link itself. -/
def originalOf (x : Forest XarFile) (link : Text) (f : XarFile) : XarFile :=
  (x.preorder.find? fun g => xarAttrGet g none "id".toList = some link).getD f

/-- The size, where no iterator faults. -/
def sizeOf (x : Forest XarFile) (f : XarFile) : Text :=
  let size f := valueOr ['0'] f "data/size".toList
  if (xarPropGet f "type".toList).join = some "hardlink".toList then
    match xarAttrGet f (some "type".toList) "link".toList with
    | none => size f
    | some link => if link = "original".toList then size f else size (originalOf x link f)
  else size f

/-- The names from the root down to a file. -/
def namesTo (f : XarFile) (above : List XarFile) : List Text :=
  (above.reverse ++ [f]).map fun g => (fileName g).getD []

/-- The row of a file, given the files above it. -/
def rowOf (x : Forest XarFile) (v : XarFile × List XarFile) : TocRow where
  path := join (namesTo v.1 v.2)
  xtype := xarGetType v.1
  type := typeChar (xarGetType v.1)
  size := sizeOf x v.1
  user := xarGetOwner v.1
  group := xarGetGroup v.1
  offset := if sameCase (xarGetType v.1) "file".toList then (xarPropGet v.1 "data/offset".toList).join else some ['0']

theorem foldl_path {above : List XarFile} (named : ∀ g ∈ above, (fileName g).isSome) (tmp : Text) :
    above.foldl (fun tmp i => (fileName i).getD nullText ++ '/' :: tmp) tmp =
      join (above.reverse.map (fun g => (fileName g).getD []) ++ [tmp]) := by
  induction above generalizing tmp with
  | nil => simp [join]
  | cons g above rest =>
    obtain ⟨text, found⟩ := Option.isSome_iff_exists.mp (named g (by simp))
    rw [List.foldl_cons, rest fun h member => named h (List.mem_cons_of_mem _ member), join_concat_append,
      ← join_concat (by simp)]
    simp [found]

theorem xarGetPath_named {c : Cursor XarFile} (named : (fileName c.label).isSome)
    (above : ∀ g ∈ c.above, (fileName g).isSome) : xarGetPath c = some (join (namesTo c.label c.above)) := by
  obtain ⟨text, found⟩ := Option.isSome_iff_exists.mp named
  simp [xarGetPath, found, foldl_path above, namesTo]

theorem linkedFile_some (link : Text) (i : XarIter XarFile) :
    linkedFile link (some i) =
      if xarAttrGet i.iter.label none "id".toList = some link then some (some i.iter.label)
      else (xarFileNext i).bind (linkedFile link) := by
  rw [linkedFile]
  split_ifs
  · rfl
  · split
    · next fault => rw [fault]; rfl
    · next moved => rw [moved]; rfl

theorem tocRows_some (x : Forest XarFile) (i : XarIter XarFile) :
    tocRows x (some i) = (tocRow x i).bind fun row =>
      (xarFileNext i).bind fun next => (tocRows x next).map (row :: ·) := by
  rw [tocRows]
  cases tocRow x i with
  | none => rfl
  | some row =>
    simp only [Option.bind_eq_bind, Option.bind_some]
    split
    · next fault => rw [fault]; rfl
    · next next moved =>
      rw [moved, Option.bind_some]
      cases tocRows x next <;> rfl

/-- The search for a link's original, from a file on. -/
theorem linkedFile_eq (link : Text) {f : Option (XarIter XarFile)} (deep : ∀ i, f = some i → Deep i)
    (visible : ∀ v ∈ XarIter.left f, ∃ text, fileName v.1 = some text ∧ Visible text) :
    linkedFile link f =
      some (((XarIter.left f).map Prod.fst).find? fun g => xarAttrGet g none "id".toList = some link) := by
  induction f using walk_induction fileName with
  | stop => rw [linkedFile]; rfl
  | step i rest =>
    rw [linkedFile_some, XarIter.left, List.map_cons]
    by_cases here : xarAttrGet i.iter.label none "id".toList = some link
    · rw [if_pos here, List.find?_cons_of_pos (by simpa using here)]
    · obtain ⟨text, named, seen⟩ := visible (i.iter.label, i.iter.above) (by simp [XarIter.left])
      obtain ⟨next, moved, deeper⟩ := xarNext_deep (deep i rfl) named seen
      rw [if_neg here, xarFileNext, moved, Option.bind_some, List.find?_cons_of_neg (by simpa using here),
        xarNext_rest moved]
      apply rest next moved deeper
      intro v member
      exact visible v (by rw [XarIter.left, xarNext_rest moved]; exact List.mem_cons_of_mem _ member)

theorem xarFileFirst_left (x : Forest XarFile) : XarIter.left (xarFileFirst x) = x.visits [] := by
  obtain ⟨none, empty⟩ | ⟨c, found, above, visits⟩ := Cursor.first_visits (f := x)
  · simp [xarFileFirst, none, empty, XarIter.left]
  · simp [xarFileFirst, found, visits, above, XarIter.left, XarIter.rest]

theorem xarFileFirst_deep (x : Forest XarFile) (i : XarIter XarFile) (first : xarFileFirst x = some i) : Deep i := by
  cases x with
  | nil => cases first
  | node f children next =>
    obtain rfl := Option.some.inj first
    exact Nat.zero_le _

theorem xarGetSize_named {x : Forest XarFile} (named : Named x) (f : XarFile) :
    xarGetSize x f = some (sizeOf x f) := by
  have linked (link : Text) : linkedFile link (xarFileFirst x) =
      some (x.preorder.find? fun g => xarAttrGet g none "id".toList = some link) := by
    rw [linkedFile_eq link (xarFileFirst_deep x), xarFileFirst_left, Forest.map_fst_visits]
    rw [xarFileFirst_left]
    intro v member
    exact named v.1 (x.map_fst_visits [] ▸ List.mem_map_of_mem member)
  simp only [xarGetSize, sizeOf, linked, originalOf]
  split_ifs
  · cases xarAttrGet f (some "type".toList) "link".toList with
    | none => rfl
    | some link => simp only; split_ifs <;> rfl
  · rfl

/-- With a name for every file, the loop gives the rows of all files in pre-order. -/
theorem tocRows_named {x : Forest XarFile} (named : Named x) {f : Option (XarIter XarFile)}
    (deep : ∀ i, f = some i → Deep i)
    (among : ∀ v ∈ XarIter.left f, v.1 ∈ x.preorder ∧ ∀ g ∈ v.2, g ∈ x.preorder) :
    tocRows x f = some ((XarIter.left f).map (rowOf x)) := by
  induction f using walk_induction fileName with
  | stop => rw [tocRows]; rfl
  | step i rest =>
    obtain ⟨member, above⟩ := among (i.iter.label, i.iter.above) (by simp [XarIter.left])
    obtain ⟨text, found, visible⟩ := named _ member
    obtain ⟨next, moved, deeper⟩ := xarNext_deep (deep i rfl) found visible
    have path : xarGetPath i.iter = some (join (namesTo i.iter.label i.iter.above)) := by
      apply xarGetPath_named (by simp [found])
      intro g inside
      obtain ⟨_, found, -⟩ := named g (above g inside)
      simp [found]
    have row : tocRow x i = some (rowOf x (i.iter.label, i.iter.above)) := by
      rw [tocRow, xarGetSize_named named, path]
      rfl
    have later : tocRows x next = some ((XarIter.left next).map (rowOf x)) := by
      apply rest next moved deeper
      intro v member
      exact among v (by rw [XarIter.left, xarNext_rest moved]; exact List.mem_cons_of_mem _ member)
    rw [tocRows_some, row, Option.bind_some, xarFileNext, moved, Option.bind_some, later, XarIter.left,
      xarNext_rest moved]
    rfl

/-- A file without a name is never passed. -/
theorem tocRows_unnamed {x : Forest XarFile} {f : Option (XarIter XarFile)}
    (unnamed : ∃ v ∈ XarIter.left f, fileName v.1 = none) : tocRows x f = none := by
  induction f using walk_induction fileName with
  | stop =>
    obtain ⟨v, member, -⟩ := unnamed
    simp [XarIter.left] at member
  | step i rest =>
    rw [tocRows_some]
    obtain ⟨v, member, missing⟩ := unnamed
    obtain rfl | later := List.mem_cons.mp member
    · have lost : xarGetPath i.iter = none := by rw [xarGetPath, missing]; rfl
      have fault : tocRow x i = none := by
        rw [tocRow, lost]
        cases xarGetSize x i.iter.label <;> rfl
      rw [fault]
      rfl
    · cases tocRow x i with
      | none => rfl
      | some row =>
        cases moved : xarFileNext i with
        | none => rfl
        | some next =>
          rw [xarNext_rest moved] at later
          simp [rest next moved ⟨v, later, missing⟩]

theorem pkgTocFiles_named {x : Forest XarFile} (named : Named x) :
    pkgTocFiles x = some ((x.visits []).map (rowOf x)) := by
  rw [pkgTocFiles, tocRows_named named (xarFileFirst_deep x), xarFileFirst_left]
  rw [xarFileFirst_left]
  intro v member
  apply And.intro (x.map_fst_visits [] ▸ List.mem_map_of_mem member)
  intro g above
  exact (Forest.mem_above_of_mem_visits member above).resolve_right List.not_mem_nil

theorem pkgTocFiles_unnamed {x : Forest XarFile} (unnamed : ∃ f ∈ x.preorder, fileName f = none) :
    pkgTocFiles x = none := by
  obtain ⟨f, member, missing⟩ := unnamed
  rw [← x.map_fst_visits []] at member
  obtain ⟨v, visited, rfl⟩ := List.mem_map.mp member
  apply tocRows_unnamed
  rw [xarFileFirst_left]
  exact ⟨v, visited, missing⟩

theorem named_of_visible {x : Forest XarFile} (visible : NamesVisible x)
    (all : ∀ f ∈ x.preorder, (fileName f).isSome) : Named x := by
  intro f member
  obtain ⟨text, found⟩ := Option.isSome_iff_exists.mp (all f member)
  exact ⟨text, found, visible f member text found⟩

/-- The loop comes to its end exactly if every file has a name. It then has visited every file once, in pre-order, with
the names from the root down joined, and the size of the original where a file is a link. -/
theorem pkgTocFiles_eq {x : Forest XarFile} (visible : NamesVisible x) :
    pkgTocFiles x =
      if ∀ f ∈ x.preorder, (fileName f).isSome then some ((x.visits []).map (rowOf x)) else none := by
  split_ifs with all
  · exact pkgTocFiles_named (named_of_visible visible all)
  · apply pkgTocFiles_unnamed
    push Not at all
    obtain ⟨f, member, missing⟩ := all
    exact ⟨f, member, by simpa using missing⟩

/-- A directory, a file in it, and a link to that file. -/
def linkedArchive : Forest XarFile :=
  let entry (name type : String) (attrs : List XarAttr) (props : XarProps) : XarProps :=
    .node { key := "type".toList, value := some type.toList, attrs } .nil
      (.node { key := "name".toList, value := some name.toList } .nil props)
  let size : XarProps := .node { key := "size".toList, value := some ['5'] } .nil .nil
  let file : XarFile :=
    { attrs := [{ key := "id".toList, value := ['1'] }]
      props := entry "f" "file" [] (.node { key := "data".toList } size .nil) }
  let link : XarFile := { props := entry "g" "hardlink" [{ key := "link".toList, value := ['1'] }] .nil }
  .node link .nil (.node { props := entry "d" "directory" [] .nil } (.node file .nil .nil) .nil)

theorem pkgTocFiles_linkedArchive :
    (pkgTocFiles linkedArchive).map (fun rows => rows.map fun row => (row.path, row.type, row.size)) =
      some [(['g'], 'l', ['5']), (['d'], 'd', ['0']), (['d', '/', 'f'], 'f', ['5'])] :=
  (congrArg _ (pkgTocFiles_eq (x := linkedArchive) (by unfold NamesVisible; decide +kernel))).trans (by decide +kernel)

/-! ## The keys of a file -/

section Keys

variable {α : Type} {key : α → Text} {i : XarIter α}

/-- The path is that of the nodes above. -/
def Exact (key : α → Text) (i : XarIter α) : Prop :=
  i.path = if i.iter.ups = [] then none else some (join (i.iter.above.reverse.map key))

theorem pathAbove_exact {i : XarIter α} (exact : Exact key i) (clean : ∀ a ∈ i.iter.above, Clean (key a)) {parent : α}
    {next : Forest α} {ups : List (α × Forest α)} (above : i.iter.ups = (parent, next) :: ups) :
    pathAbove i.path = some (if ups = [] then none else some (join ((ups.map Prod.fst).reverse.map key))) := by
  have names : i.iter.above.reverse.map key = (ups.map Prod.fst).reverse.map key ++ [key parent] := by
    simp [Cursor.above, above]
  have cleaned : ∀ part ∈ (ups.map Prod.fst).reverse.map key ++ [key parent], Clean part := by
    rw [← names]
    simpa using clean
  rw [Exact, if_neg (by simp [above]), names] at exact
  rw [exact, pathAbove, Option.map_some, Option.some.injEq]
  by_cases top : ups = []
  · rw [if_neg (by rw [slash_mem_join cleaned]; simp [top]), if_pos top]
  · have more : (ups.map Prod.fst).reverse.map key ≠ [] := by simpa using top
    have several : '/' ∈ join ((ups.map Prod.fst).reverse.map key ++ [key parent]) := by
      rw [slash_mem_join cleaned]
      simpa using List.length_pos_iff.mpr top
    rw [if_pos several, if_neg top, dirname_join more cleaned]

theorem xarNext_leaf_exact (leaf : i.child = none) (exact : Exact key i) (clean : ∀ a ∈ i.iter.above, Clean (key a)) :
    ∃ next, xarNext (fun a => some (key a)) i = some next ∧ ∀ j, next = some j → Exact key j := by
  induction i using xarNext.induct with
  | case1 i child down => simp [leaf] at down
  | case2 i _ sibling right =>
    refine ⟨_, xarNext_right leaf right, ?_⟩
    rintro j ⟨⟩
    rw [Exact, Cursor.ups_right right, Cursor.above, Cursor.ups_right right]
    exact exact
  | case3 i _ last top => exact ⟨none, xarNext_top leaf last top, by simp⟩
  | case4 i _ last parent after ups above lost =>
    rw [pathAbove_exact exact clean above] at lost
    cases lost
  | case5 i _ last parent after ups above path found climb =>
    rw [pathAbove_exact exact clean above] at found
    obtain rfl := Option.some.inj found
    rw [xarNext_above leaf last above, pathAbove_exact exact clean above]
    apply climb rfl rfl
    intro a member
    exact clean a (by simp only [Cursor.above, above, List.map_cons]; exact List.mem_cons_of_mem _ member)

theorem xarNext_exact (exact : Exact key i) (clean : ∀ a ∈ i.iter.above, Clean (key a)) :
    ∃ next, xarNext (fun a => some (key a)) i = some next ∧ ∀ j, next = some j → Exact key j := by
  cases down : i.child with
  | none => exact xarNext_leaf_exact down exact clean
  | some child =>
    have ups := XarIter.ups_child down
    rw [xarNext_child down]
    rw [Exact] at exact
    by_cases top : i.iter.ups = []
    · rw [exact, if_pos top]
      refine ⟨_, rfl, ?_⟩
      rintro j ⟨⟩
      simp [Exact, Cursor.above, ups, top, join]
    · rw [exact, if_neg top]
      refine ⟨_, rfl, ?_⟩
      rintro j ⟨⟩
      have more : i.iter.above.reverse.map key ≠ [] := by simpa [Cursor.above] using top
      simp only [Exact, ups, Cursor.above, List.map_cons, List.reverse_cons, List.map_append, reduceCtorEq, if_false]
      rw [List.map_nil, join_concat (by simpa [Cursor.above] using more)]
      rfl

end Keys

theorem propNode_exact {i : XarIter XarProp} (exact : Exact XarProp.key i) :
    propNode i = join (Forest.pathOf XarProp.key (i.iter.label, i.iter.above)) := by
  rw [propNode, exact, Forest.pathOf, List.map_append]
  by_cases top : i.iter.ups = []
  · simp [top, Cursor.above, join]
  · rw [if_neg top, List.map_cons, List.map_nil, join_concat (by simpa [Cursor.above] using top)]

theorem propNodes_some (i : XarIter XarProp) :
    propNodes (some i) = (xarPropNext i).bind fun next => (propNodes next).map (propNode i :: ·) := by
  rw [propNodes]
  split
  · next fault => rw [fault]; rfl
  · next next moved => rw [moved]; rfl

theorem propNodes_exact {p : Option (XarIter XarProp)} (exact : ∀ i, p = some i → Exact XarProp.key i)
    (clean : ∀ v ∈ XarIter.left p, ∀ a ∈ v.2, Clean a.key) :
    propNodes p = some ((XarIter.left p).map fun v => join (Forest.pathOf XarProp.key v)) := by
  induction p using walk_induction fun p : XarProp => some p.key with
  | stop => rw [propNodes]; rfl
  | step i rest =>
    obtain ⟨next, moved, exact'⟩ :=
      xarNext_exact (exact i rfl) (clean (i.iter.label, i.iter.above) (by simp [XarIter.left]))
    have later : propNodes next = some ((XarIter.left next).map fun v => join (Forest.pathOf XarProp.key v)) := by
      apply rest next moved exact'
      intro v member
      exact clean v (by rw [XarIter.left, xarNext_rest moved]; exact List.mem_cons_of_mem _ member)
    rw [propNodes_some, xarPropNext, moved, Option.bind_some, later, XarIter.left, xarNext_rest moved,
      propNode_exact (exact i rfl)]
    rfl

/-- With keys that are not empty and have no slash, the calls return every key once, with all above it. -/
theorem xarPropKeys_clean {f : XarFile} (some : f.props ≠ .nil) (clean : ∀ p ∈ f.props.preorder, Clean p.key) :
    xarPropKeys f = Option.some ((f.props.visits []).map fun v => join (Forest.pathOf XarProp.key v)) := by
  cases props : f.props with
  | nil => exact absurd props some
  | node p children next =>
    rw [xarPropKeys, props]
    have first : propNodes (Option.some { iter := ⟨p, children, next, []⟩ }) = Option.some
        (((Forest.node p children next).visits []).map fun v => join (Forest.pathOf XarProp.key v)) := by
      apply propNodes_exact
      · rintro i ⟨⟩
        rfl
      · rintro ⟨b, ups⟩ member a above
        apply clean
        rw [props]
        have visited : (b, ups) ∈ (Forest.node p children next).visits [] := member
        exact (Forest.mem_above_of_mem_visits visited above).resolve_right List.not_mem_nil
    exact first

/-! ## The keys a file answers to -/

/-- Keys of properties are not empty and have no slash. -/
def CleanMap (m : FileMap) : Prop := ∀ path, (m.props path).isSome → ∀ part ∈ path, Clean part

/-- A call that gives no property an empty key. -/
def FileCall.Proper : FileCall → Prop
  | propSet key _ => [] ∉ key.splitOn '/'
  | _ => True

theorem clean_of_mem_splitOn {key part : Text} (proper : [] ∉ key.splitOn '/') (member : part ∈ key.splitOn '/') :
    Clean part := by
  apply And.intro
  · rintro rfl
    exact proper member
  · exact slash_not_mem_of_mem_splitOn member

theorem cleanMap_apply {m : FileMap} (clean : CleanMap m) {call : FileCall} (proper : call.Proper) :
    CleanMap (m.apply call) := by
  cases call with
  | propSet key value =>
    intro path found part member
    cases path with
    | nil => cases member
    | cons k ks =>
      simp only [FileMap.apply, PathMap.put] at found
      split_ifs at found with same above
      · rw [same] at member
        exact clean_of_mem_splitOn proper member
      · exact clean_of_mem_splitOn proper (above.subset member)
      · exact clean _ found part member
  | propUnset key =>
    intro path found
    simp only [FileMap.apply, PathMap.cut] at found
    split_ifs at found
    · cases found
    · exact clean path found
  | attrSet prop key value =>
    cases prop with
    | none => exact clean
    | some prop =>
      intro path found
      simp only [FileMap.apply, PathMap.amend] at found
      split_ifs at found
      · exact clean path (by simpa using found)
      · exact clean path found

theorem cleanMap_calls {calls : List FileCall} (proper : ∀ call ∈ calls, call.Proper) {m : FileMap}
    (clean : CleanMap m) :
    CleanMap (calls.foldl FileMap.apply m) := by
  induction calls generalizing m with
  | nil => exact clean
  | cons call calls rest =>
    apply rest fun call member => proper call (List.mem_cons_of_mem _ member)
    exact cleanMap_apply clean (proper call List.mem_cons_self)

/-- After any run that uses no empty keys, the calls return exactly the keys the file answers to, each once; where it
has no properties they fault. -/
theorem xarPropKeys_run {calls : List FileCall} (proper : ∀ call ∈ calls, call.Proper) {f : XarFile}
    (run : calls.foldlM FileCall.apply {} = some f) :
    (xarPropKeys f = none ↔ f.props = .nil) ∧
      ∀ keys, xarPropKeys f = some keys → keys.Nodup ∧ ∀ key, key ∈ keys ↔ (xarPropGet f key).isSome := by
  have spec := calls_spec (f := {}) trivial calls
  rw [run] at spec
  obtain ⟨-, distinct, same⟩ := spec
  have known : CleanMap f.answers := by
    rw [same, answers_new]
    exact cleanMap_calls proper fun path found => by cases found
  have named : ∀ v ∈ f.props.visits [], ∀ part ∈ Forest.pathOf XarProp.key v, Clean part := by
    intro v member
    apply known
    have labelled : f.props.labels XarProp.key (Forest.pathOf XarProp.key v) = some v.1 :=
      Forest.labels_of_mem_visits distinct member
    simp [XarFile.answers, PathMap.view, labelled]
  have clean : ∀ p ∈ f.props.preorder, Clean p.key := by
    intro p member
    rw [← f.props.map_fst_visits []] at member
    obtain ⟨v, visited, rfl⟩ := List.mem_map.mp member
    exact named v visited v.1.key (by simp [Forest.pathOf])
  have paths (key : Text) :
      key ∈ (f.props.visits []).map (fun v => join (Forest.pathOf XarProp.key v)) ↔ (xarPropGet f key).isSome := by
    have get : (xarPropGet f key).isSome = (f.props.labels XarProp.key (key.splitOn '/')).isSome := by
      rw [xarPropGet_answers, Option.isSome_map]
      exact Option.isSome_map
    rw [get, ← Forest.mem_map_pathOf_iff distinct, List.mem_map, List.mem_map]
    apply exists_congr
    intro v
    apply and_congr_right
    intro visited
    apply Iff.intro
    · rintro rfl
      exact (splitOn_join (Forest.pathOf_ne_nil v) (named v visited)).symm
    · intro split
      rw [split, join]
      exact List.intercalate_splitOn '/'
  by_cases bare : f.props = .nil
  · rw [xarPropKeys, bare]
    exact ⟨by simp [xarPropFirst, Cursor.first], by simp [xarPropFirst, Cursor.first]⟩
  · rw [xarPropKeys_clean bare clean]
    apply And.intro (by simp [bare])
    rintro keys ⟨⟩
    apply And.intro _ paths
    have nodup : ((f.props.visits []).map (Forest.pathOf XarProp.key)).Nodup := Forest.nodup_map_pathOf distinct
    rw [show (fun v => join (Forest.pathOf XarProp.key v)) = join ∘ Forest.pathOf XarProp.key from rfl, ← List.map_map]
    apply nodup.map_on
    intro path member path' member' same
    obtain ⟨v, visited, rfl⟩ := List.mem_map.mp member
    obtain ⟨v', visited', rfl⟩ := List.mem_map.mp member'
    rw [← splitOn_join (Forest.pathOf_ne_nil v) (named v visited), same,
      splitOn_join (Forest.pathOf_ne_nil v') (named v' visited')]

/-- The properties of a file with a size, and of its data nothing else. -/
def sizedFile : XarFile where
  props := .node { key := "name".toList, value := some ['f'] } .nil
    (.node { key := "data".toList } (.node { key := "size".toList, value := some ['5'] } .nil .nil) .nil)

theorem xarPropKeys_run_nested :
    [FileCall.propSet "data".toList none, .propSet "data/offset".toList (some ['7']),
      .propSet "name".toList (some ['f']), .propSet "data/size".toList (some ['5']),
      .propUnset "data/offset".toList].foldlM FileCall.apply {} = some sizedFile ∧
    xarPropKeys sizedFile = some ["name".toList, "data".toList, "data/size".toList] ∧
      ∀ key, key ∈ ["name".toList, "data".toList, "data/size".toList] ↔ (xarPropGet sizedFile key).isSome := by
  have proper : ∀ call ∈ [FileCall.propSet "data".toList none, .propSet "data/offset".toList (some ['7']),
      .propSet "name".toList (some ['f']), .propSet "data/size".toList (some ['5']),
      .propUnset "data/offset".toList], call.Proper := by
    simp only [List.forall_mem_cons, FileCall.Proper, List.not_mem_nil, false_imp_iff, implies_true, and_true]
    decide
  have run : [FileCall.propSet "data".toList none, .propSet "data/offset".toList (some ['7']),
      .propSet "name".toList (some ['f']), .propSet "data/size".toList (some ['5']),
      .propUnset "data/offset".toList].foldlM FileCall.apply {} = some sizedFile := by decide +kernel
  have keys : xarPropKeys sizedFile = some ["name".toList, "data".toList, "data/size".toList] := by decide +kernel
  exact ⟨run, keys, ((xarPropKeys_run proper run).2 _ keys).2⟩

end FsPkg.Xar
