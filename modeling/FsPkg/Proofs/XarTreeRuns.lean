import FsPkg.Model.XarTree

/-! # Runs of changes to a file of `xar/filetree.c`

Calls name properties by text with slashes, so what a file answers is a map from the pieces of that text. The list of
attributes may hold a key more than once, as `xar_attr_pset` never looks at its last cell, but always answers with
what was set last. Copying a file turns every list of properties around, which no answer shows, and sets attributes
from the front of their list on, which uncovers the oldest value of each.
-/

namespace FsPkg.Xar

open Machine
open Pkg (Text)

/-! ## Keys are paths -/

theorem splitOn_of_strsep_last {s token : Text} (split : strsep s = (token, none)) : s.splitOn '/' = [token] := by
  simp only [strsep, Prod.mk.injEq] at split
  obtain ⟨rfl, slash⟩ := split
  have absent : '/' ∉ s := by
    intro member
    simp [member] at slash
  rw [List.splitOn_eq_singleton absent, List.takeWhile_eq_self_iff.mpr fun c member => by
    simpa using fun same : c = '/' => absent (same ▸ member)]

theorem slash_not_mem_strsep (s : Text) : '/' ∉ (strsep s).1 := by
  intro member
  simpa using List.mem_takeWhile_imp member

theorem splitOn_of_strsep {s token rest : Text} (split : strsep s = (token, some rest)) :
    s.splitOn '/' = token :: rest.splitOn '/' := by
  simp only [strsep, Prod.mk.injEq] at split
  obtain ⟨rfl, slash⟩ := split
  split_ifs at slash with member
  obtain rfl := Option.some.inj slash
  have clean : '/' ∉ s.takeWhile (· ≠ '/') := slash_not_mem_strsep s
  have stop : s.dropWhile (· ≠ '/') = '/' :: (s.dropWhile (· ≠ '/')).tail := by
    cases rest : s.dropWhile (· ≠ '/') with
    | nil => simpa using List.dropWhile_eq_nil_iff.mp rest '/' member
    | cons c tail =>
      have head := List.head?_dropWhile_not (· ≠ '/') s
      rw [rest] at head
      rw [show c = '/' by simpa using head, List.tail_cons]
  calc s.splitOn '/' = (s.takeWhile (· ≠ '/') ++ '/' :: (s.dropWhile (· ≠ '/')).tail).splitOn '/' := by
        rw [← stop, List.takeWhile_append_dropWhile]
    _ = _ := List.splitOn_append_cons_self_of_not_mem clean _

/-- Keys by the pieces `strsep` takes off their front. -/
theorem strsep_induction {motive : Text → Prop} (last : ∀ key token, strsep key = (token, none) → motive key)
    (more : ∀ key token rest, strsep key = (token, some rest) → motive rest → motive key) (key : Text) :
    motive key := by
  induction size : key.length using Nat.strongRecOn generalizing key with
  | ind n shorter =>
    cases split : strsep key with
    | mk token rest =>
      cases rest with
      | none => exact last key token split
      | some rest => exact more key token rest split (shorter _ (size ▸ strsep_length split) rest rfl)

theorem slash_not_mem_of_mem_splitOn {key part : Text} (member : part ∈ key.splitOn '/') : '/' ∉ part := by
  induction key using strsep_induction with
  | last key token piece =>
    rw [splitOn_of_strsep_last piece, List.mem_singleton] at member
    rw [member, show token = (strsep key).1 by rw [piece]]
    exact slash_not_mem_strsep key
  | more key token rest piece later =>
    rw [splitOn_of_strsep piece, List.mem_cons] at member
    obtain rfl | member := member
    · rw [show part = (strsep key).1 by rw [piece]]
      exact slash_not_mem_strsep key
    · exact later member

theorem xarPropFind_eq (props : XarProps) (key : Text) :
    xarPropFind props key = props.find XarProp.key (key.splitOn '/') := by
  induction key using strsep_induction generalizing props with
  | last key token piece =>
    rw [splitOn_of_strsep_last piece, xarPropFind]
    split <;> simp_all [Forest.find]
  | more key token rest piece below =>
    rw [splitOn_of_strsep piece, xarPropFind, Forest.find_cons token (List.splitOn_ne_nil _ _)]
    split
    · simp_all
    · next same =>
      obtain ⟨rfl, rfl⟩ : token = _ ∧ rest = _ := by simpa [piece] using same
      cases props.sibling XarProp.key token with
      | none => rfl
      | some found => exact below found.2

theorem xarPropAmid_eq (change : Text → XarProps → XarProps) (props : XarProps) (key : Text) :
    xarPropAmid change props key = props.amid XarProp.key change (key.splitOn '/') := by
  induction key using strsep_induction generalizing props with
  | last key token piece =>
    rw [splitOn_of_strsep_last piece, xarPropAmid]
    split <;> simp_all [Forest.amid]
  | more key token rest piece below =>
    rw [splitOn_of_strsep piece, xarPropAmid, Forest.amid_cons _ token (List.splitOn_ne_nil _ _)]
    split
    · simp_all
    · next same =>
      obtain ⟨rfl, rfl⟩ : token = _ ∧ rest = _ := by simpa [piece] using same
      simp only [below]

/-- A null pointer goes over a text. -/
def Frees (value stands : Option Text) : Prop := value = none ∧ stands ≠ none

instance (value stands : Option Text) : Decidable (Frees value stands) := inferInstanceAs (Decidable (_ ∧ _))

theorem xarPropSetvalue_eq (value : Option Text) (p : XarProp) :
    xarPropSetvalue value p = if Frees value p.value then none else some { p with value } := by
  cases value with
  | some value => simp [xarPropSetvalue, Frees]
  | none =>
    cases p with
    | mk key stands attrs pfx => cases stands <;> simp [xarPropSetvalue, Frees]

/-- Setting is putting, unless it frees the value of the property that is found. -/
theorem xarPropSetR_eq (value : Option Text) (props : XarProps) (key : Text) :
    xarPropSetR true value props key =
      if Frees value ((props.labels XarProp.key (key.splitOn '/')).bind XarProp.value) then none
      else some (props.put XarProp.key (fun key => { key }) (fun p => { p with value }) (key.splitOn '/')) := by
  induction key using strsep_induction generalizing props with
  | last key token piece =>
    rw [splitOn_of_strsep_last piece, xarPropSetR]
    split
    · next same =>
      obtain rfl : token = _ := by simpa [piece] using same
      cases found : props.sibling XarProp.key token with
      | none => simp [Forest.put, Forest.labels_cons, found, xarPropNew, Frees]
      | some node =>
        simp only [if_true, xarPropSetvalue_eq, Forest.labels_cons, found, Option.bind_some, Forest.under_nil,
          Forest.put]
        rw [Forest.alter_found found fun p children => ({ p with value }, children)]
        split_ifs <;> rfl
    · simp_all
  | more key token rest piece below =>
    have more : rest.splitOn '/' ≠ [] := List.splitOn_ne_nil _ _
    rw [splitOn_of_strsep piece, xarPropSetR, Forest.put_cons _ _ token more]
    split
    · simp_all
    · next same =>
      obtain ⟨rfl, rfl⟩ : token = _ ∧ rest = _ := by simpa [piece] using same
      cases found : props.sibling XarProp.key token with
      | none =>
        simp only [below, Forest.labels_cons, found, Forest.labels_nil, Option.bind_none]
        rw [if_neg (by simp [Frees]), if_neg (by simp [Frees])]
        rfl
      | some node =>
        rw [Forest.labels_cons, found, Option.bind_some, Forest.under_of_ne_nil node more]
        simp only [below]
        rw [Forest.alter_found found fun p children => (p, children.put XarProp.key _ _ (rest.splitOn '/'))]
        split_ifs <;> rfl

/-! ## What a file answers -/

/-- What is known of a property: its value and its attributes. -/
structure Entry where
  value : Option Text := none
  attrs : Text → Option Text := fun _ => none

/-- The answers a file should give: its attributes, and the properties by the pieces of their keys. -/
structure FileMap where
  attrs : Text → Option Text := fun _ => none
  props : PathMap Text Entry := fun _ => none

/-- A property as its entry. -/
def XarProp.entry (p : XarProp) : Entry := { value := p.value, attrs := fun key => xarAttrPget key p.attrs }

/-- The answers a file gives. -/
def XarFile.answers (f : XarFile) : FileMap where
  attrs key := xarAttrPget key f.attrs
  props := (f.props.labels XarProp.key).view XarProp.entry

inductive FileCall where
  | propSet (key : Text) (value : Option Text)
  | propUnset (key : Text)
  | attrSet (prop : Option Text) (key value : Text)

/-- The call, as the source makes it: no result is a property that points at freed memory. -/
def FileCall.apply (f : XarFile) : FileCall → Option XarFile
  | propSet key value => xarPropSet f key value
  | propUnset key => some (xarPropUnset f key)
  | attrSet prop key value => some (xarAttrSet f prop key value).2

/-- The call, as a change to the answers. -/
def FileMap.apply (m : FileMap) : FileCall → FileMap
  | .propSet key value =>
    { m with props := m.props.put (fun _ => {}) (fun e => { e with value }) (key.splitOn '/') }
  | .propUnset key => { m with props := m.props.cut (key.splitOn '/') }
  | .attrSet none key value => { m with attrs := Function.update m.attrs key (some value) }
  | .attrSet (some prop) key value =>
    { m with props :=
      m.props.amend (fun e => { e with attrs := Function.update e.attrs key (some value) }) (prop.splitOn '/') }

/-- The call frees the value of a property and puts nothing in its place. -/
def FileMap.Frees (m : FileMap) : FileCall → Prop
  | .propSet key value => Xar.Frees value ((m.props (key.splitOn '/')).bind Entry.value)
  | .propUnset _ | .attrSet .. => False

/-- No call of a run does. -/
def FileMap.Keeps (m : FileMap) : List FileCall → Prop
  | [] => True
  | call :: calls => ¬m.Frees call ∧ (m.apply call).Keeps calls

/-! ## Attributes -/

theorem xarAttrPget_cons (key : Text) (a : XarAttr) (attrs : List XarAttr) :
    xarAttrPget key (a :: attrs) = if a.key = key then some a.value else xarAttrPget key attrs := by
  by_cases here : a.key = key <;> simp [xarAttrPget, here]

theorem xarAttrPget_overwrite {key value : Text} {attrs written : List XarAttr}
    (found : attrOverwrite key value attrs = some written) :
    (fun k => xarAttrPget k written) = Function.update (fun k => xarAttrPget k attrs) key (some value) := by
  induction attrs generalizing written with
  | nil => simp [attrOverwrite] at found
  | cons a attrs behind =>
    cases attrs with
    | nil => simp [attrOverwrite] at found
    | cons b attrs =>
      funext k
      simp only [attrOverwrite] at found
      split_ifs at found with here
      · obtain rfl := Option.some.inj found
        by_cases asked : k = key
        · simp [xarAttrPget_cons, here, asked]
        · simp [xarAttrPget_cons, here, asked, Ne.symm asked]
      · obtain ⟨rest, written, rfl⟩ := Option.map_eq_some_iff.mp found
        have later := congrFun (behind written) k
        by_cases asked : k = key
        · subst asked
          rw [xarAttrPget_cons, if_neg here, later, Function.update_self, Function.update_self]
        · rw [xarAttrPget_cons, later, Function.update_of_ne asked, Function.update_of_ne asked, xarAttrPget_cons k a]

/-- A set attribute is answered, though an older value of it may stay in the last cell. -/
theorem xarAttrPget_pset (key value : Text) (attrs : List XarAttr) :
    (fun k => xarAttrPget k (xarAttrPset key value attrs)) =
      Function.update (fun k => xarAttrPget k attrs) key (some value) := by
  unfold xarAttrPset
  cases found : attrOverwrite key value attrs with
  | some written => exact xarAttrPget_overwrite found
  | none =>
    funext k
    by_cases asked : k = key
    · simp [xarAttrPget_cons, asked]
    · simp [xarAttrPget_cons, asked, Ne.symm asked]

/-! ## Runs -/

theorem xarPropGet_answers (f : XarFile) (key : Text) :
    xarPropGet f key = (f.answers.props (key.splitOn '/')).map Entry.value := by
  rw [xarPropGet, xarPropFind_eq]
  simp only [XarFile.answers, PathMap.view, Forest.labels]
  cases f.props.find XarProp.key (key.splitOn '/') <;> rfl

theorem xarAttrGet_answers (f : XarFile) (prop : Option Text) (key : Text) :
    xarAttrGet f prop key =
      match prop with
      | none => f.answers.attrs key
      | some prop => (f.answers.props (prop.splitOn '/')).bind fun e => e.attrs key := by
  cases prop with
  | none => rfl
  | some prop =>
    simp only [xarAttrGet, xarPropFind_eq, XarFile.answers, PathMap.view, Forest.labels]
    cases f.props.find XarProp.key (prop.splitOn '/') <;> rfl

theorem value_answers (f : XarFile) (path : List Text) :
    (f.answers.props path).bind Entry.value = (f.props.labels XarProp.key path).bind XarProp.value := by
  simp only [XarFile.answers, PathMap.view]
  cases f.props.labels XarProp.key path <;> rfl

theorem answers_put (f : XarFile) (key : Text) (value : Option Text) :
    XarFile.answers ⟨f.attrs, f.props.put XarProp.key (fun key => { key }) (fun p => { p with value })
      (key.splitOn '/')⟩ = f.answers.apply (.propSet key value) := by
  simp only [XarFile.answers, FileMap.apply]
  congr 1
  apply Eq.trans (congrArg (PathMap.view XarProp.entry) (Forest.labels_put _ _ f.props _))
  · apply PathMap.view_put
    intro p
    rfl
  · intro _; rfl
  · intro _; rfl

theorem answers_propUnset {f : XarFile} (distinct : f.props.Distinct XarProp.key) (key : Text) :
    (xarPropUnset f key).answers = f.answers.apply (.propUnset key) := by
  simp only [xarPropUnset, XarFile.answers, FileMap.apply, xarPropAmid_eq]
  rw [Forest.labels_cut distinct (List.splitOn_ne_nil _ _), PathMap.view_cut]

theorem answers_attrSet (f : XarFile) (prop : Option Text) (key value : Text) :
    (xarAttrSet f prop key value).2.answers = f.answers.apply (.attrSet prop key value) := by
  cases prop with
  | none => simp only [xarAttrSet, XarFile.answers, FileMap.apply, xarAttrPget_pset]
  | some prop =>
    simp only [xarAttrSet, FileMap.apply, xarPropFind_eq]
    cases found : f.props.find XarProp.key (prop.splitOn '/') with
    | none =>
      rw [PathMap.amend_absent]
      simp [XarFile.answers, PathMap.view, Forest.labels, found]
    | some node =>
      simp only [XarFile.answers, xarPropAmid_eq]
      congr 1
      apply Eq.trans (congrArg (PathMap.view XarProp.entry) (Forest.labels_amend _ f.props _))
      · apply PathMap.view_amend
        intro p
        simp only [XarProp.entry, xarAttrPget_pset]
      · intro p
        rfl

theorem distinct_attrSet {f : XarFile} (distinct : f.props.Distinct XarProp.key) (prop : Option Text)
    (key value : Text) : (xarAttrSet f prop key value).2.props.Distinct XarProp.key := by
  cases prop with
  | none => exact distinct
  | some prop =>
    simp only [xarAttrSet, xarPropAmid_eq]
    cases xarPropFind f.props prop with
    | none => exact distinct
    | some _ =>
      apply Forest.distinct_amid _ distinct
      intro _ _ inside
      exact Forest.distinct_alter (fun _ _ => rfl) (fun _ _ below => below) inside

/-- One call: unless it frees a value, the file answers as the map does, and siblings still differ. -/
theorem apply_spec {f : XarFile} (distinct : f.props.Distinct XarProp.key) (call : FileCall) :
    match FileCall.apply f call with
    | none => f.answers.Frees call
    | some g => ¬f.answers.Frees call ∧ g.props.Distinct XarProp.key ∧ g.answers = f.answers.apply call := by
  cases call with
  | propSet key value =>
    simp only [FileCall.apply, xarPropSet, xarPropSetR_eq, FileMap.Frees, value_answers]
    split_ifs with frees
    · exact frees
    · refine ⟨frees, Forest.distinct_put ?_ ?_ distinct _, answers_put f key value⟩
      · intro _; rfl
      · intro _; rfl
  | propUnset key =>
    refine ⟨not_false, ?_, answers_propUnset distinct key⟩
    simp only [xarPropUnset, xarPropAmid_eq]
    exact Forest.distinct_amid (fun _ _ => Forest.distinct_remove) distinct _
  | attrSet prop key value =>
    exact ⟨not_false, distinct_attrSet distinct prop key value, answers_attrSet f prop key value⟩

/-- A run: it has a result exactly if no call frees a value. -/
theorem calls_spec {f : XarFile} (distinct : f.props.Distinct XarProp.key) (calls : List FileCall) :
    match calls.foldlM FileCall.apply f with
    | none => ¬f.answers.Keeps calls
    | some g =>
      f.answers.Keeps calls ∧ g.props.Distinct XarProp.key ∧ g.answers = calls.foldl FileMap.apply f.answers := by
  induction calls generalizing f with
  | nil => exact ⟨trivial, distinct, rfl⟩
  | cons call calls rest =>
    have step := apply_spec distinct call
    rw [List.foldlM_cons, List.foldl_cons, FileMap.Keeps]
    cases called : FileCall.apply f call with
    | none =>
      rw [called] at step
      exact fun keeps => keeps.1 step
    | some g =>
      rw [called] at step
      obtain ⟨kept, distinct, same⟩ := step
      rw [← same, Option.bind_eq_bind, Option.bind_some]
      have later := rest distinct
      split at later
      · exact fun keeps => later keeps.2
      · exact ⟨⟨kept, later.1⟩, later.2⟩

theorem xarAttrSet_fst (f : XarFile) (prop key value : Text) :
    (xarAttrSet f (some prop) key value).1 = if (xarPropFind f.props prop).isSome then 0 else -1 := by
  simp only [xarAttrSet]
  split
  · next missing => simp [missing]
  · next found => simp [found]

/-! ## Copies -/

/-- A property as `xar_prop_replicate_r` copies it. -/
def XarProp.copy (p : XarProp) : XarProp where
  key := p.key
  value := p.value
  attrs := p.attrs.map fun a => { key := a.key, value := a.value }

theorem entry_copy (p : XarProp) : p.copy.entry = p.entry := by
  simp only [XarProp.entry, XarProp.copy, Entry.mk.injEq, true_and]
  funext key
  induction p.attrs with
  | nil => rfl
  | cons a attrs behind => rw [List.map_cons, xarAttrPget_cons, xarAttrPget_cons, behind]

theorem xarPropReplicateR_eq (props copied : XarProps) :
    xarPropReplicateR props copied = (props.map XarProp.copy).turnOnto copied := by
  induction props generalizing copied with
  | nil => rfl
  | node p children next below behind => rw [xarPropReplicateR, behind, below]; rfl

theorem key_copy (p : XarProp) : p.copy.key = p.key := rfl

theorem labels_replicateR {props : XarProps} (distinct : props.Distinct XarProp.key) (path : List Text) :
    (xarPropReplicateR props .nil).labels XarProp.key path = (props.labels XarProp.key path).map XarProp.copy := by
  have copied : (props.map XarProp.copy).Distinct XarProp.key := Forest.distinct_map key_copy distinct
  rw [xarPropReplicateR_eq, Forest.labels_turnOnto copied]
  exact Forest.labels_map key_copy props path

/-- Setting attributes one by one: the last with a key is answered. -/
theorem xarAttrPget_foldl (attrs : List XarAttr) (key : Text) :
    xarAttrPget key (attrs.foldl (fun set a => xarAttrPset a.key a.value set) []) =
      xarAttrPget key attrs.reverse := by
  induction attrs using List.reverseRecOn with
  | nil => rfl
  | append_singleton attrs a before =>
    rw [List.foldl_append, List.reverse_append, List.foldl_cons, List.foldl_nil]
    have set := congrFun
      (xarAttrPget_pset a.key a.value (attrs.foldl (fun set a => xarAttrPset a.key a.value set) [])) key
    rw [set, Function.update_apply, before, List.reverse_singleton, List.singleton_append, xarAttrPget_cons]
    simp only [eq_comm]

theorem xarAttrPget_filter (attrs : List XarAttr) (key out : Text) :
    xarAttrPget key (attrs.filter fun a => a.key ≠ out) = if key = out then none else xarAttrPget key attrs := by
  induction attrs with
  | nil => simp [xarAttrPget]
  | cons a attrs behind =>
    by_cases dropped : a.key = out
    · rw [List.filter_cons_of_neg (by simpa using dropped), behind, xarAttrPget_cons]
      by_cases asked : key = out
      · simp [asked]
      · simp [asked, dropped, Ne.symm asked]
    · rw [List.filter_cons_of_pos (by simpa using dropped), xarAttrPget_cons, behind, xarAttrPget_cons]
      by_cases here : a.key = key
      · simp [here, here ▸ dropped]
      · simp [here]

theorem foldl_xarAttrSet (attrs : List XarAttr) (f : XarFile) :
    attrs.foldl (fun (ret : XarFile) a => (xarAttrSet ret none a.key a.value).2) f =
      { f with attrs := attrs.foldl (fun set a => xarAttrPset a.key a.value set) f.attrs } := by
  induction attrs generalizing f with
  | nil => rfl
  | cons a attrs rest => rw [List.foldl_cons, rest]; rfl

/-- A copy answers alike about properties; about the file's own attributes, but for the dropped `id`, it answers with
what is the last of the list, where the file answers with what is the first. -/
theorem xarFileReplicate_answers {f : XarFile} (distinct : f.props.Distinct XarProp.key) :
    (∀ key, xarPropGet (xarFileReplicate f) key = xarPropGet f key) ∧
      (∀ prop key, xarAttrGet (xarFileReplicate f) (some prop) key = xarAttrGet f (some prop) key) ∧
      ∀ key, xarAttrGet (xarFileReplicate f) none key =
        if key = "id".toList then none else xarAttrPget key f.attrs.reverse := by
  have props : (xarFileReplicate f).answers.props = f.answers.props := by
    funext path
    simp only [XarFile.answers, xarFileReplicate, foldl_xarAttrSet, PathMap.view, labels_replicateR distinct,
      Option.map_map]
    congr 1
    funext p
    exact entry_copy p
  apply And.intro _ (And.intro _ _)
  · intro key
    rw [xarPropGet_answers, xarPropGet_answers, props]
  · intro prop key
    rw [xarAttrGet_answers, xarAttrGet_answers, props]
  · intro key
    simp only [xarAttrGet, xarFileReplicate, foldl_xarAttrSet, xarAttrPget_foldl]
    rw [← List.filter_reverse, xarAttrPget_filter]

theorem xarFileReplicate_answers_stale : ∃ f,
    [FileCall.attrSet none ['a'] ['1'], .attrSet none ['b'] ['2'], .propSet ['p'] (some ['4']),
      .attrSet none ['a'] ['3']].foldlM FileCall.apply {} = some f ∧
      xarAttrGet f none ['a'] = some ['3'] ∧ xarAttrGet (xarFileReplicate f) none ['a'] = some ['1'] := by
  have distinct : (Forest.node { key := ['p'], value := some ['4'] } .nil .nil : XarProps).Distinct XarProp.key :=
    ⟨rfl, trivial, trivial⟩
  refine ⟨{
    attrs := [{ key := ['a'], value := ['3'] }, { key := ['b'], value := ['2'] }, { key := ['a'], value := ['1'] }]
    props := .node { key := ['p'], value := some ['4'] } .nil .nil }, by decide +kernel, by decide, ?_⟩
  exact ((xarFileReplicate_answers distinct).2.2 ['a']).trans (by decide)

/-! ## Whole runs -/

/-- The answers of a new file. -/
theorem answers_new : ({} : XarFile).answers = {} := by
  simp only [XarFile.answers, FileMap.mk.injEq]
  apply And.intro rfl
  funext q
  simp [PathMap.view, Forest.labels_nil]

/-- Whatever is set, overwritten and taken away, all answers are those of a map: from the pieces of keys to values and
attributes, and from keys to the file's own attributes. Only where a null pointer is set over a text the property is
left with a pointer to freed memory. -/
theorem xarFile_run (calls : List FileCall) :
    let m : FileMap := calls.foldl FileMap.apply {}
    match calls.foldlM FileCall.apply {} with
    | none => ¬FileMap.Keeps {} calls
    | some f =>
      FileMap.Keeps {} calls ∧
      (∀ key, xarPropGet f key = (m.props (key.splitOn '/')).map Entry.value) ∧
      (∀ key, xarAttrGet f none key = m.attrs key) ∧
      (∀ prop key, xarAttrGet f (some prop) key = (m.props (prop.splitOn '/')).bind fun e => e.attrs key) ∧
      ∀ prop key value, (xarAttrSet f (some prop) key value).1 =
        if (m.props (prop.splitOn '/')).isSome then 0 else -1 := by
  intro m
  have run := calls_spec (f := {}) trivial calls
  rw [answers_new] at run
  split at run
  · exact run
  · next f _ =>
    obtain ⟨keeps, -, same⟩ := run
    have same : f.answers = m := same
    rw [← same]
    refine ⟨keeps, xarPropGet_answers f, xarAttrGet_answers f none, fun prop => xarAttrGet_answers f (some prop), ?_⟩
    intro prop key value
    rw [xarAttrSet_fst, xarPropFind_eq]
    simp only [XarFile.answers, PathMap.view, Forest.labels, Option.isSome_map]

end FsPkg.Xar
