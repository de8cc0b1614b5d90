import FsPkg.Machine.Forest
import Mathlib.Data.List.Nodup

/-! # Forests as maps from paths

In a forest whose labels have keys, a list of keys names a node: the first sibling with the first key, below it the
first with the second, and so on. Reading labels by path, changing one, putting one with what is missing above it, and
cutting a node with all below are operations on a map from paths. Only cutting needs that siblings differ in their
keys: it would uncover the next one with the same key.
-/

namespace FsPkg.Machine

variable {α κ : Type*} [DecidableEq κ]

/-- A map from paths, each path the keys from the roots down. -/
abbrev PathMap (κ α : Type*) := List κ → Option α

namespace PathMap

/-- Change the label of a path. -/
def amend (change : α → α) (path : List κ) (m : PathMap κ α) : PathMap κ α :=
  fun q => if q = path then (m q).map change else m q

/-- Change the label of a path, with fresh labels for it and the paths above where there is none. -/
def put (fresh : κ → α) (change : α → α) (path : List κ) (m : PathMap κ α) : PathMap κ α := fun q =>
  match q with
  | [] => m []
  | k :: ks =>
    if q = path then some (change ((m q).getD (fresh (ks.getLastD k))))
    else if q <+: path then some ((m q).getD (fresh (ks.getLastD k)))
    else m q

/-- Forget a path and all below. -/
def cut (path : List κ) (m : PathMap κ α) : PathMap κ α :=
  fun q => if path <+: q then none else m q

theorem amend_absent {path : List κ} {m : PathMap κ α} (absent : m path = none) (change : α → α) :
    m.amend change path = m := by
  funext q
  by_cases here : q = path <;> simp [amend, here, absent]

variable {β : Type*}

/-- What is seen of the labels. -/
def view (see : α → β) (m : PathMap κ α) : PathMap κ β := fun q => (m q).map see

theorem view_amend {see : α → β} {change : α → α} {change' : β → β} (agree : ∀ a, see (change a) = change' (see a))
    (path : List κ) (m : PathMap κ α) : (m.amend change path).view see = (m.view see).amend change' path := by
  funext q
  by_cases here : q = path
  · cases found : m q <;> simp [view, amend, here, here ▸ found, agree]
  · simp [view, amend, here]

theorem view_put {see : α → β} {change : α → α} {change' : β → β} (agree : ∀ a, see (change a) = change' (see a))
    (fresh : κ → α) (path : List κ) (m : PathMap κ α) :
    (m.put fresh change path).view see = (m.view see).put (fun k => see (fresh k)) change' path := by
  funext q
  cases q with
  | nil => rfl
  | cons k ks =>
    simp only [view, put]
    split_ifs <;> cases m (k :: ks) <;> simp [agree]

theorem view_cut (see : α → β) (path : List κ) (m : PathMap κ α) : (m.cut path).view see = (m.view see).cut path := by
  funext q
  by_cases below : path <+: q <;> simp [view, cut, below]

end PathMap

namespace Forest

variable (key : α → κ)

/-- The first sibling with a key, with what is below it. -/
def sibling (k : κ) : Forest α → Option (α × Forest α)
  | nil => none
  | node a children next => if k = key a then some (a, children) else sibling k next

/-- Replace the first sibling with a key, and what is below it. -/
def alter (k : κ) (change : α → Forest α → α × Forest α) : Forest α → Forest α
  | nil => nil
  | node a children next =>
    if k = key a then node (change a children).1 (change a children).2 next
    else node a children (alter k change next)

/-- Drop the first sibling with a key, and what is below it. -/
def remove (k : κ) : Forest α → Forest α
  | nil => nil
  | node a children next => if k = key a then next else node a children (remove k next)

/-- The node of a path. -/
def find : List κ → Forest α → Option (α × Forest α)
  | [], _ => none
  | [k], f => f.sibling key k
  | k :: l :: ks, f => (f.sibling key k).bind fun found => find (l :: ks) found.2

/-- Change the siblings a path ends among. -/
def amid (change : κ → Forest α → Forest α) : List κ → Forest α → Forest α
  | [], f => f
  | [k], f => change k f
  | k :: l :: ks, f => f.alter key k fun a children => (a, amid change (l :: ks) children)

/-- Change the label of a path, with fresh nodes for it and those above where there is none. -/
def put (fresh : κ → α) (change : α → α) : List κ → Forest α → Forest α
  | [], f => f
  | [k], f =>
    match f.sibling key k with
    | some _ => f.alter key k fun a children => (change a, children)
    | none => node (change (fresh k)) nil f
  | k :: l :: ks, f =>
    match f.sibling key k with
    | some _ => f.alter key k fun a children => (a, put fresh change (l :: ks) children)
    | none => node (fresh k) (put fresh change (l :: ks) nil) f

/-- Siblings differ in their keys, at every level. -/
def Distinct : Forest α → Prop
  | nil => True
  | node a children next => next.sibling key (key a) = none ∧ Distinct children ∧ Distinct next

/-- What a forest says about paths. -/
def labels (f : Forest α) : PathMap κ α := fun path => (f.find key path).map Prod.fst

variable {key}

@[simp] theorem labels_nil_path (f : Forest α) : f.labels key [] = none := rfl

variable (key) in
/-- What a node says about the paths below it, itself at the empty path. -/
def under (found : α × Forest α) : PathMap κ α
  | [] => some found.1
  | k :: ks => found.2.labels key (k :: ks)

@[simp] theorem under_nil (found : α × Forest α) : under key found [] = some found.1 := rfl

@[simp] theorem under_cons (found : α × Forest α) (k : κ) (ks : List κ) :
    under key found (k :: ks) = found.2.labels key (k :: ks) := rfl

theorem labels_cons (f : Forest α) (k : κ) (ks : List κ) :
    f.labels key (k :: ks) = (f.sibling key k).bind fun found => under key found ks := by
  cases ks with
  | nil => simp only [labels, find]; cases f.sibling key k <;> rfl
  | cons l ks => simp only [labels, find]; cases f.sibling key k <;> rfl

theorem labels_nil (path : List κ) : (nil : Forest α).labels key path = none := by
  cases path with
  | nil => rfl
  | cons k ks => rw [labels_cons]; rfl

theorem find_cons (k : κ) {ks : List κ} (more : ks ≠ []) (f : Forest α) :
    f.find key (k :: ks) = (f.sibling key k).bind fun found => found.2.find key ks := by
  cases ks with
  | nil => exact absurd rfl more
  | cons l ks => rfl

theorem amid_cons (change : κ → Forest α → Forest α) (k : κ) {ks : List κ} (more : ks ≠ []) (f : Forest α) :
    f.amid key change (k :: ks) = f.alter key k fun a children => (a, children.amid key change ks) := by
  cases ks with
  | nil => exact absurd rfl more
  | cons l ks => rfl

theorem put_cons (fresh : κ → α) (change : α → α) (k : κ) {ks : List κ} (more : ks ≠ []) (f : Forest α) :
    f.put key fresh change (k :: ks) =
      match f.sibling key k with
      | some _ => f.alter key k fun a children => (a, children.put key fresh change ks)
      | none => node (fresh k) (put key fresh change ks nil) f := by
  cases ks with
  | nil => exact absurd rfl more
  | cons l ks => rfl

/-! ## The first sibling with a key -/

/-- Of the change, only what it makes of the first sibling with the key counts. -/
theorem alter_found {f children : Forest α} {k : κ} {a : α} (found : f.sibling key k = some (a, children))
    (change : α → Forest α → α × Forest α) :
    f.alter key k change = f.alter key k fun _ _ => change a children := by
  induction f with
  | nil => rfl
  | node b below next _ behind =>
    simp only [sibling] at found
    simp only [alter]
    split_ifs at found ⊢
    · cases found
      rfl
    · rw [behind found]

theorem sibling_alter {change : α → Forest α → α × Forest α} {k : κ} (keeps : ∀ a c, key (change a c).1 = key a)
    (f : Forest α) (l : κ) :
    (f.alter key k change).sibling key l =
      if l = k then (f.sibling key k).map fun found => change found.1 found.2 else f.sibling key l := by
  induction f with
  | nil => simp [alter, sibling]
  | node a children next _ behind =>
    by_cases here : k = key a
    · subst here
      by_cases asked : l = key a <;> simp [alter, sibling, keeps, asked]
    · by_cases asked : l = k
      · subst asked
        simpa [alter, sibling, here] using behind
      · simpa [alter, sibling, here, asked] using if_congr Iff.rfl rfl behind

theorem sibling_remove_ne {k l : κ} (other : l ≠ k) (f : Forest α) :
    (f.remove key k).sibling key l = f.sibling key l := by
  induction f with
  | nil => rfl
  | node a children next _ behind =>
    by_cases here : k = key a
    · simp [remove, sibling, here, here ▸ other]
    · simp [remove, sibling, here, behind]

theorem sibling_remove_self {f : Forest α} (distinct : f.Distinct key) (k : κ) :
    (f.remove key k).sibling key k = none := by
  induction f with
  | nil => rfl
  | node a children next _ behind =>
    obtain ⟨once, -, rest⟩ := distinct
    by_cases here : k = key a
    · simp [remove, here, once]
    · simp [remove, sibling, here, behind rest]

theorem distinct_of_sibling {f children : Forest α} {k : κ} {a : α} (distinct : f.Distinct key)
    (found : f.sibling key k = some (a, children)) : children.Distinct key := by
  induction f with
  | nil => simp [sibling] at found
  | node b below next _ behind =>
    obtain ⟨-, inside, rest⟩ := distinct
    simp only [sibling] at found
    split_ifs at found
    · simp only [Option.some.injEq, Prod.mk.injEq] at found
      exact found.2 ▸ inside
    · exact behind rest found

theorem distinct_alter {change : α → Forest α → α × Forest α} {k : κ} (keeps : ∀ a c, key (change a c).1 = key a)
    (inside : ∀ a c, Distinct key c → Distinct key (change a c).2) {f : Forest α} (distinct : f.Distinct key) :
    (f.alter key k change).Distinct key := by
  induction f with
  | nil => trivial
  | node a children next _ behind =>
    obtain ⟨once, below, rest⟩ := distinct
    by_cases here : k = key a
    · simp only [alter, here, if_true]
      exact ⟨by rw [keeps]; exact once, inside _ _ below, rest⟩
    · simp only [alter, here, if_false]
      apply And.intro _ ⟨below, behind rest⟩
      rw [sibling_alter keeps, if_neg (Ne.symm here)]
      exact once

theorem distinct_remove {k : κ} {f : Forest α} (distinct : f.Distinct key) : (f.remove key k).Distinct key := by
  induction f with
  | nil => trivial
  | node a children next _ behind =>
    obtain ⟨once, below, rest⟩ := distinct
    by_cases here : k = key a
    · simpa only [remove, here, if_true] using rest
    · simp only [remove, here, if_false]
      exact ⟨(sibling_remove_ne (Ne.symm here) next).trans once, below, behind rest⟩

/-! ## All paths -/

theorem labels_node (a : α) (children next : Forest α) (k : κ) (ks : List κ) :
    (node a children next).labels key (k :: ks) =
      if k = key a then under key (a, children) ks else next.labels key (k :: ks) := by
  rw [labels_cons, labels_cons, sibling]
  split_ifs <;> rfl

variable (key) in
/-- The path of a node that is visited. -/
def pathOf (v : α × List α) : List κ := (v.2.reverse ++ [v.1]).map key

omit [DecidableEq κ] in
theorem pathOf_below (v : α × List α) (a : α) : pathOf key (v.1, v.2 ++ [a]) = key a :: pathOf key v := by
  simp [pathOf]

omit [DecidableEq κ] in
theorem pathOf_ne_nil (v : α × List α) : pathOf key v ≠ [] := by
  simp [pathOf]

theorem under_of_ne_nil (found : α × Forest α) {path : List κ} (more : path ≠ []) :
    under key found path = found.2.labels key path := by
  cases path with
  | nil => exact absurd rfl more
  | cons k ks => rfl

/-- A node that is visited is what its path names, if siblings differ. -/
theorem labels_of_mem_visits {f : Forest α} (distinct : f.Distinct key) {v : α × List α} (visited : v ∈ f.visits []) :
    f.labels key (pathOf key v) = some v.1 := by
  induction f generalizing v with
  | nil => simp [visits] at visited
  | node a children next below behind =>
    obtain ⟨once, inside, rest⟩ := distinct
    rw [visits, visits_eq_map children] at visited
    simp only [List.mem_cons, List.mem_append, List.mem_map] at visited
    obtain rfl | ⟨w, under, rfl⟩ | after := visited
    · simp [pathOf, labels_node]
    · rw [pathOf_below, labels_node, if_pos rfl, under_of_ne_nil _ (pathOf_ne_nil w)]
      exact below inside under
    · have found := behind rest after
      cases path : pathOf key v with
      | nil => exact absurd path (pathOf_ne_nil v)
      | cons k ks =>
        rw [path, labels_cons] at found
        have other : k ≠ key a := by
          rintro rfl
          simp [once] at found
        rw [labels_node, if_neg other, labels_cons, found]

theorem mem_map_pathOf {f : Forest α} {path : List κ} (found : (f.labels key path).isSome) :
    path ∈ (f.visits []).map (pathOf key) := by
  induction f generalizing path with
  | nil => simp [labels_nil] at found
  | node a children next below behind =>
    rw [visits, visits_eq_map children]
    simp only [List.map_cons, List.map_append, List.map_map, List.mem_cons, List.mem_append]
    cases path with
    | nil => simp at found
    | cons k ks =>
      rw [labels_node] at found
      split_ifs at found with here
      · cases ks with
        | nil => exact .inl (by simp [pathOf, here])
        | cons l ls =>
          apply Or.inr (Or.inl _)
          obtain ⟨w, visited, same⟩ := List.mem_map.mp (below found)
          exact List.mem_map.mpr ⟨w, visited, by rw [Function.comp_apply, pathOf_below, same, here]⟩
      · exact .inr (.inr (behind found))

theorem mem_preorder_of_labels {f : Forest α} {path : List κ} {a : α} (found : f.labels key path = some a) :
    a ∈ f.preorder := by
  induction f generalizing path with
  | nil => simp [labels_nil] at found
  | node b children next below behind =>
    cases path with
    | nil => cases found
    | cons k ks =>
      rw [labels_node] at found
      rw [preorder, List.mem_cons, List.mem_append]
      split_ifs at found
      · cases ks with
        | nil => exact .inl (Option.some.inj found).symm
        | cons l ls => exact .inr (.inl (below found))
      · exact .inr (.inr (behind found))

/-- The paths of all nodes are those with a label, each once. -/
theorem mem_map_pathOf_iff {f : Forest α} (distinct : f.Distinct key) (path : List κ) :
    path ∈ (f.visits []).map (pathOf key) ↔ (f.labels key path).isSome := by
  apply Iff.intro _ mem_map_pathOf
  rintro member
  obtain ⟨v, visited, rfl⟩ := List.mem_map.mp member
  rw [labels_of_mem_visits distinct visited]
  rfl

theorem nodup_map_pathOf {f : Forest α} (distinct : f.Distinct key) : ((f.visits []).map (pathOf key)).Nodup := by
  induction f with
  | nil => exact List.nodup_nil
  | node a children next below behind =>
    obtain ⟨once, inside, rest⟩ := distinct
    have elsewhere : ∀ ks, key a :: ks ∉ (next.visits []).map (pathOf key) := by
      intro ks member
      have found := (mem_map_pathOf_iff rest _).mp member
      rw [labels_cons, once] at found
      cases found
    have paths : ((node a children next).visits []).map (pathOf key) =
        [key a] :: (((children.visits []).map (pathOf key)).map (key a :: ·) ++ (next.visits []).map (pathOf key)) := by
      rw [visits, visits_eq_map children, List.map_cons, List.map_append, List.map_map, List.map_map]
      simp only [Function.comp_def, pathOf_below, List.cons.injEq, and_true]
      rfl
    rw [paths, List.nodup_cons, List.nodup_append]
    apply And.intro _ (And.intro ((below inside).map (List.cons_injective)) (And.intro (behind rest) _))
    · rw [List.mem_append, not_or]
      apply And.intro _ (elsewhere [])
      rintro member
      obtain ⟨path, among, same⟩ := List.mem_map.mp member
      obtain rfl := (List.cons.inj same).2
      obtain ⟨v, -, none⟩ := List.mem_map.mp among
      exact pathOf_ne_nil v none
    · rintro _ member path among rfl
      obtain ⟨ks, -, rfl⟩ := List.mem_map.mp member
      exact elsewhere ks among

/-! ## Paths -/

/-- The order of siblings does not matter to a path, if siblings differ. -/
theorem sibling_turnOnto {f : Forest α} (distinct : f.Distinct key) (g : Forest α) (k : κ) :
    (f.turnOnto g).sibling key k =
      ((f.sibling key k).map fun found => (found.1, found.2.turnOnto nil)).or (g.sibling key k) := by
  induction f generalizing g with
  | nil => rfl
  | node a children next _ behind =>
    obtain ⟨once, -, rest⟩ := distinct
    rw [turnOnto, behind rest]
    by_cases here : k = key a
    · simp [sibling, here, once]
    · simp [sibling, here]

theorem labels_turnOnto {f : Forest α} (distinct : f.Distinct key) (path : List κ) :
    (f.turnOnto nil).labels key path = f.labels key path := by
  induction path generalizing f with
  | nil => rfl
  | cons k path below =>
    rw [labels_cons, labels_cons, sibling_turnOnto distinct]
    cases found : f.sibling key k with
    | none => rfl
    | some node =>
      cases path with
      | nil => rfl
      | cons l path => exact below (distinct_of_sibling distinct found)

theorem sibling_map {change : α → α} (keeps : ∀ a, key (change a) = key a) (f : Forest α) (k : κ) :
    (f.map change).sibling key k = (f.sibling key k).map fun found => (change found.1, found.2.map change) := by
  induction f with
  | nil => rfl
  | node a children next _ behind =>
    simp only [map, sibling, keeps, behind]
    split_ifs <;> rfl

theorem labels_map {change : α → α} (keeps : ∀ a, key (change a) = key a) (f : Forest α) (path : List κ) :
    (f.map change).labels key path = (f.labels key path).map change := by
  induction path generalizing f with
  | nil => rfl
  | cons k path below =>
    rw [labels_cons, labels_cons, sibling_map keeps]
    cases f.sibling key k with
    | none => rfl
    | some node =>
      cases path with
      | nil => rfl
      | cons l path => exact below node.2

theorem distinct_map {change : α → α} (keeps : ∀ a, key (change a) = key a) {f : Forest α} (distinct : f.Distinct key) :
    (f.map change).Distinct key := by
  induction f with
  | nil => trivial
  | node a children next below behind =>
    obtain ⟨once, inside, rest⟩ := distinct
    exact ⟨by rw [sibling_map keeps, keeps, once]; rfl, below inside, behind rest⟩

/-- The label of a node that is found may change; nothing else does. -/
theorem labels_amend {change : α → α} (keeps : ∀ a, key (change a) = key a) (f : Forest α) (path : List κ) :
    (f.amid key (fun k g => g.alter key k fun a children => (change a, children)) path).labels key =
      (f.labels key).amend change path := by
  induction path generalizing f with
  | nil => funext q; cases q <;> simp [amid, PathMap.amend]
  | cons k ks below =>
    funext q
    cases q with
    | nil => simp [PathMap.amend]
    | cons l ls =>
      simp only [PathMap.amend, labels_cons, List.cons.injEq]
      cases ks with
      | nil =>
        rw [amid, sibling_alter fun a c => keeps a]
        by_cases same : l = k
        · subst same
          cases f.sibling key l <;> cases ls <;> simp
        · simp [same]
      | cons k' ks =>
        rw [amid_cons _ _ (by simp), sibling_alter fun a c => rfl]
        by_cases same : l = k
        · subst same
          cases f.sibling key l with
          | none => simp
          | some found => cases ls <;> simp [below, PathMap.amend]
        · simp [same]

theorem distinct_amid {change : κ → Forest α → Forest α} (keeps : ∀ k g, Distinct key g → Distinct key (change k g))
    {f : Forest α} (distinct : f.Distinct key) (path : List κ) : (f.amid key change path).Distinct key := by
  induction path generalizing f with
  | nil => exact distinct
  | cons k ks below =>
    cases ks with
    | nil => exact keeps k f distinct
    | cons l ks => exact distinct_alter (fun a c => rfl) (fun a c inside => below inside) distinct

/-- Cutting forgets a node and all below, if siblings differ. -/
theorem labels_cut {f : Forest α} (distinct : f.Distinct key) {path : List κ} (proper : path ≠ []) :
    (f.amid key (fun k g => g.remove key k) path).labels key = (f.labels key).cut path := by
  induction path generalizing f with
  | nil => exact absurd rfl proper
  | cons k ks below =>
    funext q
    cases q with
    | nil => simp [PathMap.cut]
    | cons l ls =>
      simp only [PathMap.cut, labels_cons, List.cons_prefix_cons]
      cases ks with
      | nil =>
        rw [amid]
        by_cases same : l = k
        · subst same
          simp [sibling_remove_self distinct]
        · simp [sibling_remove_ne same, Ne.symm same]
      | cons k' ks =>
        rw [amid_cons _ _ (by simp), sibling_alter fun a c => rfl]
        by_cases same : l = k
        · subst same
          cases found : f.sibling key l with
          | none => simp
          | some node =>
            have inside := below (distinct_of_sibling distinct found) (List.cons_ne_nil k' ks)
            cases ls <;> simp [inside, PathMap.cut]
        · simp [same, Ne.symm same]

section Put

variable {fresh : κ → α} {change : α → α} (names : ∀ k, key (fresh k) = k) (keeps : ∀ a, key (change a) = key a)
include names keeps

theorem sibling_put_self (f : Forest α) (k : κ) :
    (f.put key fresh change [k]).sibling key k =
      some (((f.sibling key k).getD (fresh k, nil)).map change id) := by
  cases found : f.sibling key k with
  | none => simp [put, found, sibling, keeps, names]
  | some node => simp [put, found, sibling_alter, keeps, Prod.map]

omit keeps in
theorem sibling_put_below (f : Forest α) (k l : κ) (ks : List κ) :
    (f.put key fresh change (k :: l :: ks)).sibling key k =
      some (((f.sibling key k).getD (fresh k, nil)).map id fun children =>
        children.put key fresh change (l :: ks)) := by
  cases found : f.sibling key k with
  | none => simp [put, found, sibling, names]
  | some node => simp [put, found, sibling_alter, Prod.map]

theorem sibling_put_ne (f : Forest α) {k l : κ} (other : l ≠ k) (ks : List κ) :
    (f.put key fresh change (k :: ks)).sibling key l = f.sibling key l := by
  cases ks <;> cases found : f.sibling key k <;> simp [put, found, sibling, sibling_alter, keeps, names, other]

/-- Putting gives a label to the path, and fresh ones to the paths above that have none. -/
theorem labels_put (f : Forest α) (path : List κ) :
    (f.put key fresh change path).labels key = (f.labels key).put fresh change path := by
  induction path generalizing f with
  | nil => funext q; cases q <;> simp [put, PathMap.put]
  | cons k ks below =>
    funext q
    cases q with
    | nil => rfl
    | cons l ls =>
      by_cases same : l = k
      · subst same
        cases ks with
        | nil =>
          rw [labels_cons, sibling_put_self names keeps]
          cases ls with
          | nil => cases found : f.sibling key l <;> simp [PathMap.put, labels_cons, found]
          | cons l' ls =>
            cases found : f.sibling key l <;> simp [PathMap.put, labels_cons f, found, labels_nil]
        | cons k' ks =>
          rw [labels_cons, sibling_put_below names]
          cases ls with
          | nil => cases found : f.sibling key l <;> simp [PathMap.put, labels_cons, found]
          | cons l' ls =>
            cases found : f.sibling key l <;>
              simp [PathMap.put, labels_cons f, found, below, labels_nil, List.cons_prefix_cons, List.getLast?_cons]
      · rw [labels_cons, sibling_put_ne names keeps f same, ← labels_cons]
        simp [PathMap.put, same, List.cons_prefix_cons]

theorem distinct_put {f : Forest α} (distinct : f.Distinct key) (path : List κ) :
    (f.put key fresh change path).Distinct key := by
  induction path generalizing f with
  | nil => exact distinct
  | cons k ks below =>
    cases ks with
    | nil =>
      cases found : f.sibling key k with
      | none => simpa [put, found, Distinct, keeps, names] using distinct
      | some node =>
        simp only [put, found]
        exact distinct_alter (fun a c => keeps a) (fun a c inside => inside) distinct
    | cons l ks =>
      cases found : f.sibling key k with
      | none =>
        simp only [put, found, Distinct, names]
        exact ⟨trivial, below trivial, distinct⟩
      | some node =>
        simp only [put, found]
        exact distinct_alter (fun a c => rfl) (fun a c inside => below inside) distinct

end Put

end Forest

end FsPkg.Machine
