import FsPkg.Proofs.DictionarySpec

/-! # Runs of the configuration store

Any sequence of `dconf_set` and `dconf_unset` on a new dictionary. What is stored for a key is what the last
call for that key left, and the finite map that the arrays represent is read off the calls.
-/

namespace FsPkg.Conf

open Pkg (Text)
open SlotTable

/-- One call; the value of `dconf_set` may be `NULL`. -/
inductive ConfOp where
  | dconfSet (key : Text) (val : Option Text)
  | dconfUnset (key : Text)
deriving DecidableEq

namespace ConfOp

def key : ConfOp → Text
  | .dconfSet key _ => key
  | .dconfUnset key => key

/-- What the call leaves for its key. -/
def leaves : ConfOp → Option (Option Text)
  | .dconfSet _ val => some val
  | .dconfUnset _ => none

/-- The call, with all allocations succeeding. -/
def run (dict : Option Dictionary) : ConfOp → Option (Option Dictionary)
  | .dconfSet key val => (Conf.dconfSet dict (some key) val {}).map Prod.snd
  | .dconfUnset key => Conf.dconfUnset dict (some key)

/-- The same call on a finite map. -/
def apply (m : Store) : ConfOp → Store
  | .dconfSet key val => m.insert key val
  | .dconfUnset key => m.erase key

end ConfOp

/-- What the last call for a key left. -/
def latest (ops : List ConfOp) (k : Text) : Option (Option Text) :=
  ((ops.filter (·.key = k)).getLast?).bind ConfOp.leaves

/-- The keys that were set and not unset since. -/
def present (ops : List ConfOp) : Finset Text :=
  (ops.map ConfOp.key).toFinset.filter fun k => (latest ops k).isSome

theorem latest_snoc (ops : List ConfOp) (op : ConfOp) (k : Text) :
    latest (ops ++ [op]) k = if op.key = k then op.leaves else latest ops k := by
  unfold latest
  rw [List.filter_append]
  by_cases same : op.key = k
  · rw [if_pos same, List.filter_cons_of_pos (by simpa using same), List.filter_nil, List.getLast?_concat]
    rfl
  · rw [if_neg same, List.filter_cons_of_neg (by simpa using same), List.filter_nil, List.append_nil]

theorem mem_present {ops : List ConfOp} {k : Text} : k ∈ present ops ↔ (latest ops k).isSome = true := by
  rw [present, Finset.mem_filter, List.mem_toFinset]
  refine ⟨And.right, fun some_ => ⟨?_, some_⟩⟩
  obtain ⟨val, found⟩ := Option.isSome_iff_exists.mp some_
  obtain ⟨op, last, -⟩ := Option.bind_eq_some_iff.mp found
  obtain ⟨member, same⟩ := List.mem_filter.mp (List.mem_of_getLast? last)
  exact List.mem_map.mpr ⟨op, member, of_decide_eq_true same⟩

/-- The finite map after the calls. -/
def storeAfter (ops : List ConfOp) : Store :=
  ops.foldl ConfOp.apply ∅

theorem lookup_apply (m : Store) (op : ConfOp) (k : Text) :
    (op.apply m).lookup k = if op.key = k then op.leaves else m.lookup k := by
  by_cases same : op.key = k
  · subst same
    rw [if_pos rfl]
    cases op with
    | dconfSet key val => exact Finmap.lookup_insert m
    | dconfUnset key => exact Finmap.lookup_erase key m
  · rw [if_neg same]
    cases op with
    | dconfSet key val => exact Finmap.lookup_insert_of_ne m (Ne.symm same)
    | dconfUnset key => exact Finmap.lookup_erase_ne (Ne.symm same)

theorem lookup_storeAfter (ops : List ConfOp) (k : Text) : (storeAfter ops).lookup k = latest ops k := by
  induction ops using List.reverseRecOn with
  | nil => exact Finmap.lookup_empty k
  | append_singleton ops op ih =>
    rw [storeAfter, List.foldl_append, List.foldl_cons, List.foldl_nil, lookup_apply, latest_snoc, ← ih]
    rfl

theorem keys_storeAfter (ops : List ConfOp) : (storeAfter ops).keys = present ops := by
  ext k
  rw [Finmap.mem_keys, ← Finmap.lookup_isSome, lookup_storeAfter, mem_present]

/-- One call carries the map along, if there is room for a new key. -/
theorem Represents.run {d : Dictionary} {m : Store} (represents : Represents d m) (op : ConfOp)
    (room : op.key ∉ m → m.keys.card < 2 ^ 27) :
    ∃ d', op.run (some d) = some (some d') ∧ Represents d' (op.apply m) := by
  cases op with
  | dconfSet key val =>
    by_cases present : key ∈ m
    · obtain ⟨d', ran, final⟩ := represents.set_present present val {}
      refine ⟨d', ?_, final⟩
      rw [ConfOp.run, Conf.dconfSet, ran]
      rfl
    · obtain ⟨d', ran, final⟩ := represents.set_new present (fun full => ⟨rfl, full ▸ room present⟩) val
      refine ⟨d', ?_, final⟩
      rw [ConfOp.run, Conf.dconfSet, ran]
      rfl
  | dconfUnset key =>
    obtain ⟨d', ran, final⟩ := represents.unset key
    refine ⟨d', ?_, final⟩
    rw [ConfOp.run, Conf.dconfUnset, ran]
    rfl

/-- Along the calls, fewer than `2 ^ 27` keys are present. -/
def Few (ops : List ConfOp) : Prop :=
  ∀ past, past <+: ops → (present past).card < 2 ^ 27

/-- Along the calls, a new key always finds fewer than `2 ^ 27` others. -/
def Roomy (ops : List ConfOp) : Prop :=
  ∀ past op, past ++ [op] <+: ops → op.key ∉ present past → (present past).card < 2 ^ 27

theorem Few.roomy {ops : List ConfOp} (few : Few ops) : Roomy ops :=
  fun past op isPrefix _ => few past ((List.prefix_append past [op]).trans isPrefix)

theorem Roomy.init {ops : List ConfOp} {op : ConfOp} (roomy : Roomy (ops ++ [op])) : Roomy ops :=
  fun past last isPrefix => roomy past last (isPrefix.trans (List.prefix_append ops [op]))

theorem mem_storeAfter {ops : List ConfOp} {k : Text} : k ∈ storeAfter ops ↔ k ∈ present ops := by
  rw [← Finmap.mem_keys, keys_storeAfter]

/-- A run is extended by the call that follows it. -/
theorem foldlM_snoc {ops : List ConfOp} {dict dict' : Option Dictionary}
    (ran : ops.foldlM ConfOp.run dict = some dict') (op : ConfOp) :
    (ops ++ [op]).foldlM ConfOp.run dict = op.run dict' := by
  rw [List.foldlM_append, ran]
  simp only [List.foldlM_cons, List.foldlM_nil, bind, Option.bind_some, pure, Option.bind_fun_some]

theorem represents_runs {ops : List ConfOp} (roomy : Roomy ops) :
    ∃ d, ops.foldlM ConfOp.run (some (dictionaryNew 0)) = some (some d) ∧ Represents d (storeAfter ops) := by
  induction ops using List.reverseRecOn with
  | nil => exact ⟨_, rfl, .new⟩
  | append_singleton ops op ih =>
    obtain ⟨d, ran, represents⟩ := ih roomy.init
    have room := roomy ops op (List.prefix_refl _)
    rw [← mem_storeAfter, ← keys_storeAfter] at room
    obtain ⟨d', next, final⟩ := represents.run op room
    refine ⟨d', ?_, ?_⟩
    · rw [foldlM_snoc ran, next]
    · rw [storeAfter, List.foldl_append]
      exact final

/-- After every sequence of calls with fewer than `2 ^ 27` keys at a time: every key has the value last set for
it, and the default if there is none; a call for one key does not change another; keys are counted, stored once
and beside their hash; and an insertion finds an empty slot, also right after the arrays are doubled. -/
theorem conf_store_is_finite_map {ops : List ConfOp} (few : Few ops) :
    ∃ d keys vals hashes, ops.foldlM ConfOp.run (some (dictionaryNew 0)) = some (some d) ∧
      d.key = some keys ∧ d.val = some vals ∧ d.hash = some hashes ∧
      (∀ k defaultVal, dconfGetStr (some d) (some k) defaultVal = some ((latest ops k).getD defaultVal)) ∧
      (∀ op : ConfOp, ∃ d', op.run (some d) = some (some d') ∧ ∀ k ≠ op.key, ∀ defaultVal,
        dconfGetStr (some d') (some k) defaultVal = dconfGetStr (some d) (some k) defaultVal) ∧
      d.n = (present ops).card ∧ Distinct keys ∧
      (∀ (i : ℕ) (k : Text), keys[i]? = some (some k) → hashes[i]? = some (dictionaryHash k)) ∧ d.n ≤ d.size ∧
      ∃ grown, dictionaryGrow d {} = some (0, grown) ∧
        ∃ i < grown.size, emptySlot grown grown.size 0 = some i ∧ (grown.key.bind (·[i]?)) = some none := by
  obtain ⟨d, ran, represents⟩ := represents_runs few.roomy
  have room : (storeAfter ops).keys.card < 2 ^ 27 := by
    rw [keys_storeAfter]
    exact few ops (List.prefix_refl ops)
  obtain ⟨keys, vals, hashes, sound, same, card⟩ := id represents
  refine ⟨d, keys, vals, hashes, ran, sound.key, sound.val, sound.hash, ?_, ?_, ?_, sound.distinct, sound.hashed, ?_, ?_⟩
  · intro k defaultVal
    rw [dconfGetStr, represents.get, lookup_storeAfter]
  · intro op
    obtain ⟨d', next, final⟩ := represents.run op fun _ => room
    refine ⟨d', next, fun k other defaultVal => ?_⟩
    rw [dconfGetStr, dconfGetStr, final.get, represents.get, lookup_apply, if_neg (Ne.symm other)]
  · rw [sound.counted, card, keys_storeAfter]
  · rw [sound.counted]
    exact_mod_cast sound.count_le
  · rw [← card] at room
    obtain ⟨grown, keys', vals', hashes', grew, sound', -, -, -, free⟩ := sound.grow {} fun full => ⟨rfl, full ▸ room⟩
    obtain ⟨i, bound, empty, hole⟩ := sound'.emptySlot free
    refine ⟨grown, grew, i, bound, empty, ?_⟩
    rw [sound'.key]
    exact hole

theorem card_present_le (ops : List ConfOp) : (present ops).card ≤ ops.length := by
  calc (present ops).card ≤ (ops.map ConfOp.key).toFinset.card := Finset.card_filter_le _ _
    _ ≤ (ops.map ConfOp.key).length := List.toFinset_card_le _
    _ = ops.length := List.length_map _

/-- `a` is set and unset again, and `b` is set to `NULL`. -/
theorem conf_store_is_finite_map_three : ∃ d,
    [ConfOp.dconfSet ['a'] (some ['1']), .dconfUnset ['a'], .dconfSet ['b'] none].foldlM ConfOp.run
      (some (dictionaryNew 0)) = some (some d) ∧
    dconfGetStr (some d) (some ['a']) (some ['x']) = some (some ['x']) ∧
    dconfGetStr (some d) (some ['b']) (some ['x']) = some none ∧ d.n = 1 := by
  have few : Few [.dconfSet ['a'] (some ['1']), .dconfUnset ['a'], .dconfSet ['b'] none] := by
    intro past isPrefix
    have short := (card_present_le past).trans isPrefix.length_le
    simp only [List.length_cons, List.length_nil] at short
    omega
  obtain ⟨d, keys, vals, hashes, ran, -, -, -, get, -, counted, -⟩ := conf_store_is_finite_map few
  refine ⟨d, ran, ?_, ?_, ?_⟩
  · rw [get]
    decide
  · rw [get]
    decide
  · rw [counted]
    decide

end FsPkg.Conf
