import FsPkg.Model.PkgTocXml
import Mathlib.Algebra.BigOperators.Group.List.Basic

/-! # Which files the walk visits

The counter that bounds the nesting counts the `file` elements beside the walk as well. An element is visited when the
positions of it and of the elements around it, counted from one, add up to no more than the bound; the walk complains at
those where they add up to one more. So a flat directory of seventeen files is taken for one that is nested too deeply.
-/

namespace FsPkg.PkgToc

open Db Pkg

/-! ## The file elements of a tree -/

/-- The places of the `file` elements among these siblings and below them, in document order; `position` others stand
before. -/
def filePlaces : Xml → ℕ → List (List ℕ)
  | .null, _ => []
  | .node n children next, position =>
    if n.matchs ['f', 'i', 'l', 'e'] then
      [position] :: (filePlaces children 0).map (position :: ·) ++ filePlaces next (position + 1)
    else filePlaces next position

/-- The positions on the way to an element, counted from one and added up. -/
def weight (place : List ℕ) : ℕ :=
  (place.map (· + 1)).sum

@[simp] theorem weight_nil : weight [] = 0 := rfl

@[simp] theorem weight_cons (position : ℕ) (place : List ℕ) :
    weight (position :: place) = position + 1 + weight place :=
  List.sum_cons

/-- The `file` elements that `xmltoc_parse_file` is called for. -/
def visited (events : List TocEvent) : List (List ℕ) :=
  events.filterMap fun
    | .file place => some place
    | _ => none

/-- The `file` elements at which the walk stops. -/
def stopped (events : List TocEvent) : List (List ℕ) :=
  events.filterMap fun
    | .tooDeep _ _ place => some place
    | _ => none

section Places

variable {n : XmlNode} {children next cur : Xml} {position : ℕ} {place : List ℕ}

theorem filePlaces_file (file : n.matchs ['f', 'i', 'l', 'e'] = true) :
    filePlaces (.node n children next) position =
      [position] :: (filePlaces children 0).map (position :: ·) ++ filePlaces next (position + 1) := by
  rw [filePlaces, if_pos file]

theorem filePlaces_other (other : ¬ n.matchs ['f', 'i', 'l', 'e'] = true) :
    filePlaces (.node n children next) position = filePlaces next position := by
  rw [filePlaces, if_neg other]

theorem mem_filePlaces_file (file : n.matchs ['f', 'i', 'l', 'e'] = true) :
    place ∈ filePlaces (.node n children next) position ↔
      place = [position] ∨ (∃ rest ∈ filePlaces children 0, place = position :: rest) ∨
        place ∈ filePlaces next (position + 1) := by
  rw [filePlaces_file file, List.mem_append, List.mem_cons, List.mem_map, or_assoc]
  simp only [eq_comm]

/-- The first step of a place goes no further back than the walk is. -/
theorem filePlaces_head (member : place ∈ filePlaces cur position) :
    ∃ head rest, place = head :: rest ∧ position ≤ head := by
  induction cur, position using filePlaces.induct with
  | case1 position => contradiction
  | case2 n children next position file _ ih =>
    rcases (mem_filePlaces_file file).mp member with rfl | ⟨rest, -, rfl⟩ | behind
    · exact ⟨position, [], rfl, le_rfl⟩
    · exact ⟨position, rest, rfl, le_rfl⟩
    · obtain ⟨head, rest, rfl, later⟩ := ih behind
      exact ⟨head, rest, rfl, by omega⟩
  | case3 n children next position other ih =>
    rw [filePlaces_other other] at member
    exact ih member

theorem position_lt_weight (member : place ∈ filePlaces cur position) : position < weight place := by
  obtain ⟨head, rest, rfl, later⟩ := filePlaces_head member
  rw [weight_cons]
  omega

/-- No two `file` elements share a place. -/
theorem filePlaces_nodup (cur : Xml) (position : ℕ) : (filePlaces cur position).Nodup := by
  induction cur, position using filePlaces.induct with
  | case1 position => exact List.nodup_nil
  | case2 n children next position file ihChildren ihNext =>
    rw [filePlaces_file file]
    apply List.Nodup.append
    · apply List.nodup_cons.mpr
      refine ⟨?_, ihChildren.map fun _ _ same => (List.cons.inj same).2⟩
      intro member
      obtain ⟨rest, inside, same⟩ := List.mem_map.mp member
      obtain rfl := (List.cons.inj same).2
      obtain ⟨head, rest, empty, -⟩ := filePlaces_head inside
      contradiction
    · exact ihNext
    · intro place here behind
      obtain ⟨head, rest, rfl, later⟩ := filePlaces_head behind
      rcases List.mem_cons.mp here with same | member
      · obtain rfl := (List.cons.inj same).1
        omega
      · obtain ⟨inner, -, same⟩ := List.mem_map.mp member
        obtain rfl := (List.cons.inj same).1
        omega
  | case3 n children next position other ih =>
    rw [filePlaces_other other]
    exact ih

/-- Where the weights pass a bound, they do not jump over it: an element no further down has just the next weight. -/
theorem exists_weight_eq {base bound : ℕ} (below : base + position ≤ bound) (member : place ∈ filePlaces cur position)
    (above : bound < base + weight place) :
    ∃ first ∈ filePlaces cur position, base + weight first = bound + 1 ∧ first.length ≤ place.length := by
  induction cur, position using filePlaces.induct generalizing base place with
  | case1 position => contradiction
  | case2 n children next position file ihChildren ihNext =>
    obtain ⟨head, rest, nonempty, -⟩ := filePlaces_head member
    have long : 1 ≤ place.length := by
      rw [nonempty]
      exact Nat.succ_le_succ (Nat.zero_le _)
    -- either this element is the one, or there is room to go on below it or beside it
    rcases Nat.eq_or_lt_of_le below with here | room
    · refine ⟨[position], (mem_filePlaces_file file).mpr (.inl rfl), ?_, long⟩
      rw [weight_cons, weight_nil]
      omega
    · rcases (mem_filePlaces_file file).mp member with rfl | ⟨inner, inside, rfl⟩ | behind
      · rw [weight_cons, weight_nil] at above
        omega
      · rw [weight_cons] at above
        obtain ⟨first, found, just, short⟩ :=
          ihChildren (show base + position + 1 + 0 ≤ bound by omega) inside (by omega)
        refine ⟨position :: first, (mem_filePlaces_file file).mpr (.inr (.inl ⟨first, found, rfl⟩)), ?_, ?_⟩
        · rw [weight_cons]
          omega
        · exact Nat.succ_le_succ short
      · obtain ⟨first, found, just, short⟩ := ihNext (show base + (position + 1) ≤ bound by omega) behind above
        exact ⟨first, (mem_filePlaces_file file).mpr (.inr (.inr found)), just, short⟩
  | case3 n children next position other ih =>
    rw [filePlaces_other other] at member ⊢
    exact ih below member above

end Places

/-! ## The walk -/

section Walk

variable (pkg : Text)

theorem xmltocOther_quiet (n : XmlNode) (children : Xml) (xft : XarFileType) :
    visited (xmltocOther pkg n children xft).1 = [] ∧ stopped (xmltocOther pkg n children xft).1 = [] := by
  unfold xmltocOther
  split_ifs <;> exact ⟨rfl, rfl⟩

theorem visited_append (first second : List TocEvent) : visited (first ++ second) = visited first ++ visited second :=
  List.filterMap_append

theorem stopped_append (first second : List TocEvent) : stopped (first ++ second) = stopped first ++ stopped second :=
  List.filterMap_append

variable {n : XmlNode} {children next cur : Xml} {parent : List ℕ} {position base recursion : ℕ} {xft : XarFileType}

theorem xmltocLoop_deep (file : n.matchs ['f', 'i', 'l', 'e'] = true) (deep : maxDepth < recursion + 1) :
    xmltocLoop pkg parent (.node n children next) position recursion xft =
      (-1, [.name n.name, .tooDeep pkg (recursion + 1) (parent ++ [position])]) := by
  rw [xmltocLoop, if_pos file, if_pos deep]

/-- Below the bound a `file` element is visited, then those below it, then those beside it. -/
theorem xmltocLoop_file (parent : List ℕ) (children next : Xml) (position : ℕ) (xft : XarFileType)
    (file : n.matchs ['f', 'i', 'l', 'e'] = true) (room : recursion + 1 ≤ maxDepth) :
    let all := xmltocLoop pkg parent (.node n children next) position recursion xft
    let below := xmltocLoop pkg (parent ++ [position]) children 0 (recursion + 1) .none
    let rest := xmltocLoop pkg parent next (position + 1) (recursion + 1) xft
    all.1 = rest.1 ∧ visited all.2 = [parent ++ [position]] ++ visited below.2 ++ visited rest.2 ∧
      stopped all.2 = stopped below.2 ++ stopped rest.2 := by
  intro all below rest
  have step : xmltocLoop pkg parent (.node n children next) position recursion xft =
      (rest.1, .name n.name :: .file (parent ++ [position]) :: below.2 ++ .value none xft :: rest.2) := by
    rw [xmltocLoop, if_pos file, if_neg (Nat.not_lt.mpr room)]
  rw [show all = _ from step]
  exact ⟨rfl, visited_append _ _, stopped_append _ _⟩

theorem xmltocLoop_other (parent : List ℕ) (children next : Xml) (position recursion : ℕ) (xft : XarFileType)
    (other : ¬ n.matchs ['f', 'i', 'l', 'e'] = true) :
    let all := xmltocLoop pkg parent (.node n children next) position recursion xft
    let rest := xmltocLoop pkg parent next position recursion (xmltocOther pkg n children xft).2
    all.1 = rest.1 ∧ visited all.2 = visited rest.2 ∧ stopped all.2 = stopped rest.2 := by
  intro all rest
  obtain ⟨unvisited, unstopped⟩ := xmltocOther_quiet pkg n children xft
  have step : xmltocLoop pkg parent (.node n children next) position recursion xft =
      (rest.1, [.name n.name] ++ ((xmltocOther pkg n children xft).1 ++ rest.2)) := by
    rw [xmltocLoop, if_neg other]
    rfl
  rw [show all = _ from step]
  refine ⟨rfl, ?_, ?_⟩
  · rw [visited_append, visited_append, unvisited]
    rfl
  · rw [stopped_append, stopped_append, unstopped]
    rfl

/-- The places of one weight class below a `file` element and beside it. -/
theorem filter_filePlaces_file (file : n.matchs ['f', 'i', 'l', 'e'] = true) (class_ : ℕ → Bool) :
    ((filePlaces (.node n children next) position).filter (class_ <| base + weight ·)).map (parent ++ ·) =
      (if class_ (base + position + 1) then [parent ++ [position]] else []) ++
        ((filePlaces children 0).filter (class_ <| base + position + 1 + weight ·)).map ((parent ++ [position]) ++ ·) ++
        ((filePlaces next (position + 1)).filter (class_ <| base + weight ·)).map (parent ++ ·) := by
  have inner : (fun place => class_ (base + weight (position :: place))) =
      (class_ <| base + position + 1 + weight ·) := by
    funext place
    rw [weight_cons]
    congr 1
    omega
  have weightHere : base + weight [position] = base + position + 1 := by
    rw [weight_cons, weight_nil]
    omega
  rw [filePlaces_file file, List.filter_append, List.map_append, List.filter_cons, List.filter_map, weightHere]
  simp only [Function.comp_def, inner]
  split <;> simp [Function.comp_def]

theorem filter_far {class_ : ℕ → Bool} {bound : ℕ} {places : List (List ℕ)} (none : ∀ w, bound < w → class_ w = false)
    (far : ∀ place ∈ places, bound < base + weight place) : places.filter (class_ <| base + weight ·) = [] := by
  apply List.filter_eq_nil_iff.mpr
  intro place member
  rw [none _ (far place member)]
  exact Bool.false_ne_true

/-- The walk from a node on visits the elements up to the bound, in document order, and stops at those that are just
behind it; if there are none, it ends well. -/
theorem xmltocLoop_spec (parent : List ℕ) (cur : Xml) (xft : XarFileType) (room : base + position ≤ maxDepth) :
    let walk := xmltocLoop pkg parent cur position (base + position) xft
    visited walk.2 = ((filePlaces cur position).filter (base + weight · ≤ maxDepth)).map (parent ++ ·) ∧
      stopped walk.2 = ((filePlaces cur position).filter (base + weight · = maxDepth + 1)).map (parent ++ ·) ∧
      (stopped walk.2 = [] → walk.1 = 0) := by
  induction cur generalizing position base parent xft with
  | null => exact ⟨rfl, rfl, fun _ => rfl⟩
  | node n children next ihChildren ihNext =>
    intro walk
    by_cases file : n.matchs ['f', 'i', 'l', 'e'] = true
    · rw [filter_filePlaces_file file (· ≤ maxDepth), filter_filePlaces_file file (· = maxDepth + 1)]
      by_cases deep : maxDepth < base + position + 1
      · -- everything that is left is behind the bound, and only this element just behind it
        have inside (place : List ℕ) (member : place ∈ filePlaces children 0) :
            maxDepth + 1 < base + position + 1 + weight place := by
          have positive := position_lt_weight member
          omega
        have behind (place : List ℕ) (member : place ∈ filePlaces next (position + 1)) :
            maxDepth + 1 < base + weight place := by
          have later := position_lt_weight member
          omega
        have here : base + position + 1 = maxDepth + 1 := by omega
        have near (w : ℕ) (far : maxDepth + 1 < w) : decide (w ≤ maxDepth) = false :=
          decide_eq_false (by omega)
        have just (w : ℕ) (far : maxDepth + 1 < w) : decide (w = maxDepth + 1) = false :=
          decide_eq_false (by omega)
        rw [show walk = _ from xmltocLoop_deep pkg file deep]
        refine ⟨?_, ?_, fun none => absurd none (List.cons_ne_nil _ _)⟩
        · rw [filter_far near inside, filter_far near behind, here]
          rfl
        · rw [filter_far just inside, filter_far just behind, here]
          rfl
      · have room' : base + position + 1 ≤ maxDepth := Nat.not_lt.mp deep
        obtain ⟨code, visitedAll, stoppedAll⟩ := xmltocLoop_file pkg parent children next position xft file room'
        obtain ⟨visitedBelow, stoppedBelow, -⟩ :=
          ihChildren (parent ++ [position]) .none (show base + position + 1 + 0 ≤ maxDepth from room')
        obtain ⟨visitedRest, stoppedRest, endsWell⟩ :=
          ihNext parent xft (show base + (position + 1) ≤ maxDepth from room')
        refine ⟨?_, ?_, ?_⟩
        · rw [if_pos (decide_eq_true room'), ← visitedRest]
          exact visitedAll.trans (congrArg (_ ++ · ++ _) visitedBelow)
        · rw [if_neg, ← stoppedRest]
          · exact stoppedAll.trans (congrArg (· ++ _) stoppedBelow)
          · rw [decide_eq_true_eq]
            omega
        · intro none
          exact code.trans (endsWell (List.append_eq_nil_iff.mp (stoppedAll.symm.trans none)).2)
    · obtain ⟨code, visitedAll, stoppedAll⟩ :=
        xmltocLoop_other pkg parent children next position (base + position) xft file
      obtain ⟨visitedRest, stoppedRest, endsWell⟩ := ihNext parent (xmltocOther pkg n children xft).2 room
      rw [filePlaces_other file]
      refine ⟨visitedAll.trans visitedRest, stoppedAll.trans stoppedRest, fun none => ?_⟩
      exact code.trans (endsWell (stoppedAll.symm.trans none))

end Walk

/-! ## Nesting and counting -/

/-- The walk below a `file` element, as it is meant: if the `file` elements are nested at most `MAX_DEPTH` levels below
this one, each is visited once and nothing is reported; and it stops only at elements that are nested more deeply. -/
structure VisitsEveryFile (pkg : Text) (place : List ℕ) (children : Xml) : Prop where
  visits : (∀ inner ∈ filePlaces children 0, inner.length ≤ maxDepth) →
    (∀ inner ∈ filePlaces children 0, (visited (xmltocParseFile pkg place children 0).2).count (place ++ inner) = 1) ∧
      stopped (xmltocParseFile pkg place children 0).2 = [] ∧ (xmltocParseFile pkg place children 0).1 = 0
  stops : ∀ inner, place ++ inner ∈ stopped (xmltocParseFile pkg place children 0).2 → maxDepth < inner.length

/-- The bound is on the sum of the positions and not on the nesting: all is well just if no `file` element within
`MAX_DEPTH` levels goes beyond it. -/
theorem xmltocParseFile_visits_iff (pkg : Text) (place : List ℕ) (children : Xml) :
    VisitsEveryFile pkg place children ↔
      ∀ inner ∈ filePlaces children 0, inner.length ≤ maxDepth → weight inner ≤ maxDepth := by
  obtain ⟨visits, stops, endsWell⟩ :=
    xmltocLoop_spec pkg place children .none (show 0 + 0 ≤ maxDepth from Nat.zero_le _)
  have injective : Function.Injective (place ++ ·) := List.append_right_injective place
  simp only [Nat.zero_add] at visits stops
  constructor
  · intro meant inner member shallow
    by_contra heavy
    -- the first element behind the bound is no deeper, and the walk stops there
    obtain ⟨first, found, just, short⟩ := exists_weight_eq (show 0 + 0 ≤ maxDepth from Nat.zero_le _) member
      (by omega : maxDepth < 0 + weight inner)
    have reported : place ++ first ∈ stopped (xmltocParseFile pkg place children 0).2 := by
      rw [show stopped (xmltocParseFile pkg place children 0).2 = _ from stops]
      refine List.mem_map_of_mem (List.mem_filter.mpr ⟨found, ?_⟩)
      rw [decide_eq_true_eq]
      omega
    have deep := meant.stops first reported
    omega
  · intro light
    constructor
    · intro shallow
      have inside : ∀ inner ∈ filePlaces children 0, weight inner ≤ maxDepth := fun inner member =>
        light inner member (shallow inner member)
      have none : stopped (xmltocParseFile pkg place children 0).2 = [] := by
        rw [show stopped (xmltocParseFile pkg place children 0).2 = _ from stops, List.map_eq_nil_iff,
          List.filter_eq_nil_iff]
        intro inner member
        have bound := inside inner member
        rw [decide_eq_true_eq]
        omega
      have all : visited (xmltocParseFile pkg place children 0).2 = (filePlaces children 0).map (place ++ ·) := by
        rw [show visited (xmltocParseFile pkg place children 0).2 = _ from visits, List.filter_eq_self.mpr]
        intro inner member
        exact decide_eq_true (inside inner member)
      refine ⟨?_, none, endsWell none⟩
      intro inner member
      rw [all]
      exact List.count_eq_one_of_mem ((filePlaces_nodup children 0).map injective) (List.mem_map_of_mem member)
    · intro inner reported
      rw [show stopped (xmltocParseFile pkg place children 0).2 = _ from stops] at reported
      obtain ⟨inner', found, same⟩ := List.mem_map.mp reported
      obtain rfl := injective same
      obtain ⟨member, just⟩ := List.mem_filter.mp found
      rw [decide_eq_true_eq] at just
      by_contra shallow
      have bound := light inner' member (Nat.not_lt.mp shallow)
      omega

/-- A row of empty `file` elements. -/
def fileRow : ℕ → Xml
  | 0 => .null
  | count + 1 => .node (.element ['f', 'i', 'l', 'e']) .null (fileRow count)

/-- A directory of seventeen files, all of them one level below it: the last one is left out as nested too deeply. -/
theorem xmltocParseFile_row :
    (∀ inner ∈ filePlaces (fileRow 17) 0, inner.length = 1) ∧
      visited (xmltocParseFile [] [0] (fileRow 17) 0).2 = (List.range 16).map ([0, ·]) ∧
      stopped (xmltocParseFile [] [0] (fileRow 17) 0).2 = [[0, 16]] ∧ (xmltocParseFile [] [0] (fileRow 17) 0).1 = -1 ∧
      ¬ VisitsEveryFile [] [0] (fileRow 17) := by
  have stops : stopped (xmltocParseFile [] [0] (fileRow 17) 0).2 = [[0] ++ [16]] := by decide
  refine ⟨by decide, by decide, stops, by decide, fun meant => ?_⟩
  have deep := meant.stops [16] (by rw [stops]; exact List.mem_singleton_self _)
  exact absurd deep (by decide)

end FsPkg.PkgToc
