import FsPkg.Model.XarWalk

/-! # Paths of slashes and names

The iterators add a name to a path and take the last one away with `dirname`. Between slashes a path has parts; taking
away costs at most one part that is not empty, and undoes adding where names have a part and no slash.
-/

namespace FsPkg.Xar

open Pkg (Text)

/-- The parts of a path that are not empty. -/
def parts (path : Text) : List Text := (path.splitOn '/').filter (· ≠ [])

/-- A slash separates what is on its two sides. -/
theorem parts_append (s t : Text) : parts (s ++ '/' :: t) = parts s ++ parts t := by
  rw [parts, List.splitOn_append_cons_self, List.filter_append]
  rfl

theorem parts_slash (s : Text) : parts (s ++ ['/']) = parts s := by
  rw [parts_append]
  simp [parts]

theorem parts_of_no_slash {s : Text} (clean : '/' ∉ s) : (parts s).length ≤ 1 := by
  rw [parts, List.splitOn_eq_singleton clean]
  exact List.length_filter_le _ _

theorem parts_rdropWhile_slash (s : Text) : parts (s.rdropWhile (· = '/')) = parts s := by
  induction s using List.reverseRecOn with
  | nil => rfl
  | append_singleton s c before =>
    by_cases slash : c = '/'
    · rw [List.rdropWhile_concat_pos _ _ _ (by simpa using slash), slash, parts_slash, before]
    · rw [List.rdropWhile_concat_neg _ _ _ (by simpa using slash)]

theorem exists_last_slash {s : Text} (slash : '/' ∈ s) : ∃ up last, s = up ++ '/' :: last ∧ '/' ∉ last := by
  obtain ⟨last, up, split, clean⟩ := List.eq_append_cons_of_mem (List.mem_reverse.mpr slash)
  exact ⟨up.reverse, last.reverse, by simpa using congrArg List.reverse split, by simpa using clean⟩

theorem rdropWhile_last {last : Text} (clean : '/' ∉ last) (up : Text) :
    (up ++ '/' :: last).rdropWhile (· ≠ '/') = up ++ ['/'] := by
  induction last using List.reverseRecOn with
  | nil => exact List.rdropWhile_concat_neg _ _ _ (by simp)
  | append_singleton last c before =>
    have other : c ≠ '/' := fun same => clean (by simp [same])
    rw [← List.cons_append, ← List.append_assoc, List.rdropWhile_concat_pos _ _ _ (by simpa using other)]
    exact before fun member => clean (List.mem_append_left _ member)

/-- `dirname` takes away one part at most. -/
theorem length_parts_dirname {path : Text} (slash : '/' ∈ path) :
    (parts path).length ≤ (parts (dirname path)).length + 1 := by
  have some : path ≠ [] := List.ne_nil_of_mem slash
  simp only [dirname, if_neg some]
  rw [← parts_rdropWhile_slash path]
  split_ifs with bare inner root
  · simp [bare, parts]
  · obtain ⟨up, last, split, clean⟩ := exists_last_slash inner
    rw [split, rdropWhile_last clean, List.rdropWhile_concat_pos _ _ _ (by simp)] at root
    have none : parts up = [] := by rw [← parts_rdropWhile_slash up, root]; rfl
    rw [split, parts_append, none]
    exact Nat.le_add_left_of_le (parts_of_no_slash clean)
  · obtain ⟨up, last, split, clean⟩ := exists_last_slash inner
    rw [split, rdropWhile_last clean, List.rdropWhile_concat_pos _ _ _ (by simp), parts_rdropWhile_slash up,
      parts_append, List.length_append]
    exact Nat.add_le_add_left (parts_of_no_slash clean) _
  · exact Nat.le_add_left_of_le (parts_of_no_slash inner)

/-! ## Joined names -/

/-- Names with slashes between. -/
def join (names : List Text) : Text := ['/'].intercalate names

theorem join_cons (name : Text) {names : List Text} (more : names ≠ []) :
    join (name :: names) = name ++ '/' :: join names := by
  simp [join, List.intercalate_cons_of_ne_nil more]

theorem join_concat {names : List Text} (more : names ≠ []) (name : Text) :
    join (names ++ [name]) = join names ++ '/' :: name := by
  induction names with
  | nil => exact absurd rfl more
  | cons first names rest =>
    cases names with
    | nil => simp [join]
    | cons second names =>
      rw [List.cons_append, join_cons first (by simp), rest (by simp), join_cons first (by simp)]
      simp

theorem join_concat_append (names : List Text) (s t : Text) : join (names ++ [s ++ t]) = join (names ++ [s]) ++ t := by
  cases names with
  | nil => simp [join]
  | cons first names => rw [join_concat (by simp), join_concat (by simp)]; simp

theorem mem_join {names : List Text} {c : Char} (member : c ∈ join names) : c = '/' ∨ ∃ name ∈ names, c ∈ name := by
  induction names with
  | nil => simp [join] at member
  | cons first names rest =>
    cases names with
    | nil => exact .inr ⟨first, by simp, by simpa [join] using member⟩
    | cons second names =>
      rw [join_cons first (by simp), List.mem_append, List.mem_cons] at member
      obtain here | slash | later := member
      · exact .inr ⟨first, by simp, here⟩
      · exact .inl slash
      · exact (rest later).imp_right fun ⟨name, among, inside⟩ => ⟨name, List.mem_cons_of_mem _ among, inside⟩

/-- A name that is not only slashes has a part. -/
theorem length_parts_pos {name : Text} (visible : ∃ c ∈ name, c ≠ '/') : 0 < (parts name).length := by
  obtain ⟨c, member, other⟩ := visible
  have joined : join (name.splitOn '/') = name := List.intercalate_splitOn '/'
  rw [← joined] at member
  obtain ⟨part, among, inside⟩ := (mem_join member).resolve_left other
  apply List.length_pos_of_mem (a := part)
  exact List.mem_filter.mpr ⟨among, by simpa using List.ne_nil_of_mem inside⟩

/-- What a name must be to be taken away again. -/
def Clean (name : Text) : Prop := name ≠ [] ∧ '/' ∉ name

theorem rdropWhile_clean {name : Text} (clean : Clean name) (up : Text) :
    (up ++ name).rdropWhile (· = '/') = up ++ name := by
  obtain ⟨some, slash⟩ := clean
  rw [List.rdropWhile_eq_self_iff]
  intro _ last
  rw [List.getLast_append_of_ne_nil _ some] at last
  have slashed : name.getLast some = '/' := by simpa using last
  exact slash (slashed ▸ List.getLast_mem some)

theorem rdropWhile_join {names : List Text} (more : names ≠ []) (clean : ∀ name ∈ names, Clean name) :
    (join names).rdropWhile (· = '/') = join names := by
  induction names using List.reverseRecOn with
  | nil => rfl
  | append_singleton names name _ =>
    by_cases first : names = []
    · subst first
      simpa [join] using rdropWhile_clean (clean name (by simp)) []
    · rw [join_concat first, List.append_cons]
      exact rdropWhile_clean (clean name (by simp)) _

theorem join_ne_nil {names : List Text} (more : names ≠ []) (clean : ∀ name ∈ names, Clean name) : join names ≠ [] := by
  cases names with
  | nil => exact absurd rfl more
  | cons first names =>
    cases names with
    | nil => simpa [join] using (clean first (by simp)).1
    | cons second names => rw [join_cons first (by simp)]; simp

/-- `dirname` undoes adding a name. -/
theorem dirname_join {names : List Text} {name : Text} (more : names ≠ [])
    (clean : ∀ part ∈ names ++ [name], Clean part) : dirname (join (names ++ [name])) = join names := by
  have last := clean name (by simp)
  have above : ∀ part ∈ names, Clean part := fun part member => clean part (List.mem_append_left _ member)
  have some : join (names ++ [name]) ≠ [] := join_ne_nil (by simp) clean
  have inner : '/' ∈ join (names ++ [name]) := by rw [join_concat more]; simp
  have up : ((join (names ++ [name])).rdropWhile (· ≠ '/')).rdropWhile (· = '/') = join names := by
    rw [join_concat more, rdropWhile_last last.2, List.rdropWhile_concat_pos _ _ _ (by simp),
      rdropWhile_join more above]
  simp only [dirname, rdropWhile_join (List.append_ne_nil_of_right_ne_nil _ (List.cons_ne_nil _ _)) clean, if_neg some,
    if_pos inner, up, if_neg (join_ne_nil more above)]

theorem slash_mem_join {names : List Text} (clean : ∀ name ∈ names, Clean name) :
    '/' ∈ join names ↔ 1 < names.length := by
  match names with
  | [] => simp [join]
  | [name] => simpa [join] using (clean name (by simp)).2
  | first :: second :: names => rw [join_cons first (by simp)]; simp

theorem splitOn_join {names : List Text} (more : names ≠ []) (clean : ∀ name ∈ names, Clean name) :
    (join names).splitOn '/' = names :=
  List.splitOn_intercalate '/' (fun name member => (clean name member).2) more

end FsPkg.Xar
