import FsPkg.Proofs.ConfLine
import FsPkg.Proofs.DictionaryRuns

/-! # Reading back a configuration file

A file is a list of items: assignments, blank lines, line comments and block comments. Written out in lines of at
most 511 characters it is read line by line, each item leaves the comment flag as it was, and `dconf_init` makes
the `dconf_set` calls of the assignments in their order. What the dictionary then holds is known from its runs, up
to the number of keys its arrays can grow to.
-/

namespace FsPkg.Conf

open Pkg (Text)

/-- A line of the file: its leading blanks and tabs, what follows them, and how it ends. -/
structure Line where
  indent : Text
  text : Text
  crlf : Bool
deriving DecidableEq

def Line.render (line : Line) : Text :=
  line.indent ++ line.text ++ lineEnd line.crlf

/-- The line is one line, and fits the buffer. -/
structure Line.Fits (line : Line) : Prop where
  blanks : Blanks line.indent
  noNewline : '\n' ∉ line.text
  short : line.render.length ≤ 511

/-- What a configuration file is made of. -/
inductive Item where
  | assignment (indent key val : Text) (quoted crlf : Bool)
  | blank (indent : Text) (crlf : Bool)
  | comment (line : Line)
  | block (opening : Line) (inner : List Line) (closing : Line)
deriving DecidableEq

namespace Item

def lines : Item → List Line
  | .assignment indent key val quoted crlf => [⟨indent, key ++ '=' :: written val quoted, crlf⟩]
  | .blank indent crlf => [⟨indent, [], crlf⟩]
  | .comment line => [line]
  | .block opening inner closing => opening :: inner ++ [closing]

def setting : Item → Option (Text × Text)
  | .assignment _ key val _ _ => some (key, val)
  | _ => none

/-- The text of each line is what the item says it is. -/
def Proper : Item → Prop
  | .assignment _ key val _ _ => IsKey key ∧ IsValue val
  | .blank _ _ => True
  | .comment line => [';'] <+: line.text ∨ ['#'] <+: line.text ∨ ['/', '/'] <+: line.text
  | .block opening inner closing => ['/', '*'] <+: opening.text ∧
      (∀ line ∈ inner, ¬['*', '/'] <+: line.text.dropWhile isBlank) ∧ ['*', '/'] <+: closing.text

end Item

/-- The file, line by line. -/
def lines (items : List Item) : List Line :=
  items.flatMap Item.lines

def render (items : List Item) : Text :=
  (lines items).flatMap Line.render

/-- The pairs of key and value, in the order of the file. -/
def listed (items : List Item) : List (Text × Text) :=
  items.filterMap Item.setting

/-- The last value listed for a key. -/
def lastListed (pairs : List (Text × Text)) (k : Text) : Option Text :=
  ((pairs.filter (·.1 = k)).getLast?).map Prod.snd

/-- A well-formed file. -/
structure WellFormed (items : List Item) : Prop where
  proper : ∀ item ∈ items, item.Proper
  fits : ∀ line ∈ lines items, line.Fits

/-- `dconf_init` returns, and the dictionary answers every question with the last value listed. -/
def ReadsBack (items : List Item) : Prop :=
  ∃ d enough, (∀ iterations ≥ enough, dconfInit { rest := render items } iterations = .returned (some d)) ∧
    ∀ k defaultVal, dconfGetStr (some d) (some k) defaultVal =
      some ((lastListed (listed items) k).or defaultVal)

/-! ## The loop, line by line -/

theorem fgetsLoop_line {line : Text} (noNewline : '\n' ∉ line) (room : ℕ) (short : line.length < room) (rest : Text) :
    fgetsLoop room (line ++ '\n' :: rest) = (line ++ ['\n'], rest, false) := by
  induction line generalizing room with
  | nil =>
    obtain ⟨room, rfl⟩ := Nat.exists_eq_succ_of_ne_zero (by omega : room ≠ 0)
    rfl
  | cons c line ih =>
    obtain ⟨room, rfl⟩ := Nat.exists_eq_succ_of_ne_zero (by omega : room ≠ 0)
    obtain ⟨other, noNewline⟩ := not_or.mp (mt List.mem_cons.mpr noNewline)
    simp only [List.length_cons] at short
    simp only [List.cons_append, fgetsLoop, Ne.symm other, ↓reduceIte, ih noNewline room (by omega)]

theorem Line.Fits.fgets {line : Line} (fits : line.Fits) (rest : Text) :
    Conf.fgets sizeofBuf { rest := line.render ++ rest } = (line.render, { rest := rest }) := by
  obtain ⟨start, same, noNewline⟩ : ∃ start, line.render = start ++ ['\n'] ∧ '\n' ∉ start := by
    have clean : '\n' ∉ line.indent := fun member => (fits.blanks.clean _ member).2.2 rfl
    cases crlf : line.crlf with
    | true =>
      refine ⟨line.indent ++ line.text ++ ['\r'], by simp [Line.render, crlf, lineEnd], ?_⟩
      simp [clean, fits.noNewline]
    | false =>
      refine ⟨line.indent ++ line.text, by simp [Line.render, crlf, lineEnd], ?_⟩
      simp [clean, fits.noNewline]
  have short := fits.short
  rw [same, List.length_append, List.length_singleton] at short
  rw [Conf.fgets, same, List.append_assoc, List.singleton_append,
    fgetsLoop_line noNewline (sizeofBuf - 1) (by simp only [sizeofBuf]; omega)]
  rfl

/-- One iteration on a line of the file. -/
theorem dconfLoop_line {line : Line} (fits : line.Fits) (fuel : ℕ) (rest : Text) (inComment : Bool)
    (dict : Option Dictionary) {comment : Bool} (read : dconfLine line.render inComment = some (comment, none)) :
    dconfLoop (fuel + 1) { rest := line.render ++ rest } inComment dict =
      dconfLoop fuel { rest } comment dict := by
  rw [dconfLoop]
  simp only [Bool.false_eq_true, ↓reduceIte, fits.fgets, read]

theorem dconfLoop_setting {line : Line} (fits : line.Fits) (fuel : ℕ) (rest : Text) (inComment : Bool)
    (dict : Option Dictionary) {comment : Bool} {key val : Text}
    (read : dconfLine line.render inComment = some (comment, some (key, val))) :
    dconfLoop (fuel + 1) { rest := line.render ++ rest } inComment dict =
      match (ConfOp.dconfSet key (some val)).run dict with
      | none => .fault
      | some dict => dconfLoop fuel { rest } comment dict := by
  rw [dconfLoop]
  simp only [Bool.false_eq_true, ↓reduceIte, fits.fgets, read, ConfOp.run]
  cases Conf.dconfSet dict (some key) (some val) {} <;> rfl

/-- The iteration that comes to the end of the file reads an empty line. -/
theorem dconfLoop_end (fuel : ℕ) (inComment : Bool) (dict : Option Dictionary) :
    dconfLoop (fuel + 2) { rest := [] } inComment dict = .returned dict := by
  rw [dconfLoop]
  have read : dconfLine [] inComment = some (inComment, none) := dconfLine_blank rfl
  simp only [Bool.false_eq_true, ↓reduceIte, fgets, sizeofBuf, Nat.reduceSub, fgetsLoop, Bool.not_false, Bool.and_true,
    Bool.or_true, read]
  rfl

theorem dconfLoop_inner {inner : List Line} (fits : ∀ line ∈ inner, line.Fits)
    (inside : ∀ line ∈ inner, ¬['*', '/'] <+: line.text.dropWhile isBlank) (fuel : ℕ) (rest : Text)
    (dict : Option Dictionary) :
    dconfLoop (inner.length + fuel) { rest := inner.flatMap Line.render ++ rest } true dict =
      dconfLoop fuel { rest } true dict := by
  induction inner with
  | nil => simp
  | cons line inner ih =>
    obtain ⟨fit, fits⟩ := List.forall_mem_cons.mp fits
    obtain ⟨here, inside⟩ := List.forall_mem_cons.mp inside
    have read : dconfLine line.render true = some (true, none) :=
      dconfLine_inside fun closes => here (stripped_close fit.blanks closes)
    rw [List.flatMap_cons, List.append_assoc, List.length_cons, Nat.add_right_comm, dconfLoop_line fit _ _ _ _ read,
      ih fits inside]

/-! ## The loop, item by item -/

/-- A line whose text starts with a marker. -/
theorem Line.Fits.stripped_marker {line : Line} (fits : line.Fits) {c : Char} {marker : Text}
    (starts : c :: marker <+: line.text) (clean : Clean (c :: marker)) (shown : isBlank c = false) :
    ∃ rest, stripped line.render = c :: (marker ++ rest) := by
  obtain ⟨tail, same⟩ := starts
  refine ⟨strStrip (cString (tail ++ lineEnd line.crlf)), ?_⟩
  rw [Line.render, List.append_assoc, stripped_indent fits.blanks, ← same, List.append_assoc,
    stripped_append clean shown, List.cons_append]

theorem dconfLine_comment_line {line : Line} (fits : line.Fits) (proper : (Item.comment line).Proper) :
    dconfLine line.render false = some (false, none) := by
  rcases proper with starts | starts | starts
  · obtain ⟨rest, same⟩ := fits.stripped_marker starts (by simp [Clean]) (by decide)
    exact dconfLine_comment (.inl same)
  · obtain ⟨rest, same⟩ := fits.stripped_marker starts (by simp [Clean]) (by decide)
    exact dconfLine_comment (.inr (.inl same))
  · obtain ⟨rest, same⟩ := fits.stripped_marker starts (by simp [Clean]) (by decide)
    exact dconfLine_comment (.inr (.inr same))

theorem dconfLoop_block {opening closing : Line} {inner : List Line} (proper : (Item.block opening inner closing).Proper)
    (fits : ∀ line ∈ (Item.block opening inner closing).lines, line.Fits) (fuel : ℕ) (rest : Text)
    (dict : Option Dictionary) :
    dconfLoop ((Item.block opening inner closing).lines.length + fuel)
        { rest := (Item.block opening inner closing).lines.flatMap Line.render ++ rest } false dict =
      dconfLoop fuel { rest } false dict := by
  obtain ⟨opens, inside, closes⟩ := proper
  have fitOpening : opening.Fits := fits _ (by simp [Item.lines])
  have fitClosing : closing.Fits := fits _ (by simp [Item.lines])
  have fitInner : ∀ line ∈ inner, line.Fits := fun line member => fits _ (by simp [Item.lines, member])
  obtain ⟨afterOpen, readOpen⟩ := fitOpening.stripped_marker opens (by simp [Clean]) (by decide)
  obtain ⟨afterClose, readClose⟩ := fitClosing.stripped_marker closes (by simp [Clean]) (by decide)
  have count : (Item.block opening inner closing).lines.length + fuel = inner.length + (fuel + 1) + 1 := by
    simp only [Item.lines, List.cons_append, List.length_cons, List.length_append, List.length_nil]
    omega
  have content : (Item.block opening inner closing).lines.flatMap Line.render ++ rest =
      opening.render ++ (inner.flatMap Line.render ++ (closing.render ++ rest)) := by
    simp only [Item.lines, List.cons_append, List.flatMap_cons, List.flatMap_append, List.flatMap_nil, List.append_nil,
      List.append_assoc]
  rw [count, content, dconfLoop_line fitOpening _ _ _ _ (dconfLine_open readOpen), dconfLoop_inner fitInner inside,
    dconfLoop_line fitClosing _ _ _ _ (dconfLine_close readClose)]

/-- The `dconf_set` calls for the pairs. -/
def sets (pairs : List (Text × Text)) : List ConfOp :=
  pairs.map fun pair => .dconfSet pair.1 (some pair.2)

/-- An item is read for its setting, and leaves the comment flag clear. -/
theorem dconfLoop_item {item : Item} (proper : item.Proper) (fits : ∀ line ∈ item.lines, line.Fits) (fuel : ℕ)
    (rest : Text) (dict : Option Dictionary) :
    dconfLoop (item.lines.length + fuel) { rest := item.lines.flatMap Line.render ++ rest } false dict =
      match (sets item.setting.toList).foldlM ConfOp.run dict with
      | none => .fault
      | some dict => dconfLoop fuel { rest } false dict := by
  cases item with
  | assignment indent key val quoted crlf =>
    obtain ⟨isKey, isValue⟩ := proper
    have fit := fits _ List.mem_cons_self
    have assigns : stripped (Line.render ⟨indent, key ++ '=' :: written val quoted, crlf⟩) =
        key ++ '=' :: written val quoted :=
      stripped_assignment fit.blanks isKey isValue quoted crlf
    have read := dconfLine_assignment isKey isValue quoted assigns
    simp only [Item.lines, List.flatMap_cons, List.flatMap_nil, List.append_nil, List.length_singleton]
    rw [Nat.add_comm, dconfLoop_setting fit _ _ _ _ read]
    simp only [sets, Item.setting, Option.toList_some, List.map_cons, List.map_nil, List.foldlM_cons, List.foldlM_nil,
      bind, pure, Option.bind_fun_some]
  | blank indent crlf =>
    have fit := fits _ List.mem_cons_self
    have read : dconfLine (Line.render ⟨indent, [], crlf⟩) false = some (false, none) := by
      apply dconfLine_blank
      rw [Line.render, List.append_nil, stripped_blank fit.blanks]
    simp only [Item.lines, List.flatMap_cons, List.flatMap_nil, List.append_nil, List.length_singleton]
    rw [Nat.add_comm, dconfLoop_line fit _ _ _ _ read]
    rfl
  | comment line =>
    have fit := fits _ List.mem_cons_self
    simp only [Item.lines, List.flatMap_cons, List.flatMap_nil, List.append_nil, List.length_singleton]
    rw [Nat.add_comm, dconfLoop_line fit _ _ _ _ (dconfLine_comment_line fit proper)]
    rfl
  | block opening inner closing =>
    rw [dconfLoop_block proper fits]
    rfl

/-- The whole file is read for its settings. -/
theorem dconfLoop_items {items : List Item} (wellFormed : WellFormed items) (fuel : ℕ) (dict : Option Dictionary) :
    dconfLoop ((lines items).length + (fuel + 2)) { rest := render items } false dict =
      match (sets (listed items)).foldlM ConfOp.run dict with
      | none => .fault
      | some dict => .returned dict := by
  induction items generalizing dict with
  | nil =>
    rw [lines, List.flatMap_nil, List.length_nil, Nat.zero_add]
    exact dconfLoop_end fuel false dict
  | cons item items ih =>
    obtain ⟨proper, properRest⟩ := List.forall_mem_cons.mp wellFormed.proper
    have fits := wellFormed.fits
    rw [lines, List.flatMap_cons] at fits
    have tail : WellFormed items := ⟨properRest, fun line member => fits line (List.mem_append_right _ member)⟩
    have content : render (item :: items) = item.lines.flatMap Line.render ++ render items := by
      rw [render, lines, List.flatMap_cons, List.flatMap_append]
      rfl
    have pairs : sets (listed (item :: items)) = sets item.setting.toList ++ sets (listed items) := by
      rw [listed, List.filterMap_cons, sets, sets, sets, ← List.map_append]
      cases item.setting <;> rfl
    rw [content, lines, List.flatMap_cons, List.length_append, Nat.add_assoc,
      dconfLoop_item proper (fun line member => fits line (List.mem_append_left _ member)), pairs, List.foldlM_append]
    cases (sets item.setting.toList).foldlM ConfOp.run dict with
    | none => rfl
    | some dict => exact ih tail dict

/-! ## What the calls leave -/

def keysListed (pairs : List (Text × Text)) : Finset Text :=
  (pairs.map Prod.fst).toFinset

theorem keys_sets (pairs : List (Text × Text)) : (sets pairs).map ConfOp.key = pairs.map Prod.fst := by
  rw [sets, List.map_map]
  rfl

theorem latest_sets (pairs : List (Text × Text)) (k : Text) :
    latest (sets pairs) k = (lastListed pairs k).map some := by
  have same : pairs.filter ((fun op : ConfOp => decide (op.key = k)) ∘ fun pair => .dconfSet pair.1 (some pair.2)) =
      pairs.filter (·.1 = k) := rfl
  rw [latest, lastListed, sets, List.filter_map, List.getLast?_map, same]
  cases (pairs.filter (·.1 = k)).getLast? <;> rfl

theorem present_sets (pairs : List (Text × Text)) : present (sets pairs) = keysListed pairs := by
  ext k
  rw [mem_present, latest_sets, Option.isSome_map, lastListed, Option.isSome_map, List.getLast?_isSome, keysListed,
    List.mem_toFinset, List.mem_map, Ne, List.filter_eq_nil_iff]
  push Not
  simp only [decide_eq_true_eq]

theorem roomy_sets {pairs : List (Text × Text)} (few : (keysListed pairs).card ≤ 2 ^ 27) : Roomy (sets pairs) := by
  intro past op isPrefix fresh
  have known : insert op.key (present past) ⊆ keysListed pairs := by
    intro k member
    rw [keysListed, ← keys_sets, List.mem_toFinset]
    apply (isPrefix.map ConfOp.key).subset
    rw [List.map_append, List.mem_append]
    rcases Finset.mem_insert.mp member with rfl | member
    · exact .inr (List.mem_singleton_self _)
    · exact .inl (List.mem_toFinset.mp (Finset.filter_subset _ _ member))
  have card := Finset.card_le_card known
  rw [Finset.card_insert_of_notMem fresh] at card
  omega

/-- The arrays cannot be doubled for key number `2 ^ 27 + 1`. -/
theorem sets_overflow {pairs : List (Text × Text)} (many : 2 ^ 27 < (keysListed pairs).card) :
    (sets pairs).foldlM ConfOp.run (some (dictionaryNew 0)) = none := by
  induction pairs using List.reverseRecOn with
  | nil => simp [keysListed] at many
  | append_singleton pairs pair ih =>
    have split : sets (pairs ++ [pair]) = sets pairs ++ [.dconfSet pair.1 (some pair.2)] := List.map_append
    rw [split]
    by_cases already : 2 ^ 27 < (keysListed pairs).card
    · rw [List.foldlM_append, ih already]
      rfl
    · have keys : keysListed (pairs ++ [pair]) = insert pair.1 (keysListed pairs) := by
        rw [keysListed, keysListed, List.map_append, List.toFinset_append, Finset.union_comm]
        rfl
      have fresh : pair.1 ∉ keysListed pairs := by
        intro member
        rw [keys, Finset.insert_eq_of_mem member] at many
        exact already many
      rw [keys, Finset.card_insert_of_notMem fresh] at many
      obtain ⟨d, ran, represents⟩ := represents_runs (roomy_sets (not_lt.mp already))
      have absent : pair.1 ∉ storeAfter (sets pairs) := by
        rwa [mem_storeAfter, present_sets]
      have full : (storeAfter (sets pairs)).keys.card = 2 ^ 27 := by
        rw [keys_storeAfter, present_sets]
        omega
      rw [foldlM_snoc ran, ConfOp.run, Conf.dconfSet, represents.set_overflow absent full _ {}]
      rfl

theorem not_readsBack {items : List Item} (wellFormed : WellFormed items)
    (many : 2 ^ 27 < (keysListed (listed items)).card) : ¬ReadsBack items := by
  rintro ⟨d, enough, returns, -⟩
  have faults := dconfLoop_items wellFormed enough (some (dictionaryNew 0))
  rw [sets_overflow many] at faults
  have returned := returns ((lines items).length + (enough + 2)) (by omega)
  rw [dconfInit, faults] at returned
  exact Init.noConfusion returned

/-- `dconf_init` reads back every file of the grammar, with any layout of comments, blank lines and line ends, as
long as it lists at most `2 ^ 27` keys: every key has the last value listed for it, and the others the default. With
more keys the byte count of `mem_double` overflows. -/
theorem config_reads_back_iff {items : List Item} (wellFormed : WellFormed items) :
    ReadsBack items ↔ (keysListed (listed items)).card ≤ 2 ^ 27 := by
  constructor
  · intro reads
    by_contra many
    exact not_readsBack wellFormed (not_le.mp many) reads
  · intro few
    obtain ⟨d, ran, represents⟩ := represents_runs (roomy_sets few)
    refine ⟨d, (lines items).length + 2, ?_, ?_⟩
    · intro iterations enough
      obtain ⟨fuel, rfl⟩ := Nat.exists_eq_add_of_le enough
      rw [dconfInit, Nat.add_assoc, Nat.add_comm 2 fuel, dconfLoop_items wellFormed, ran]
    · intro k defaultVal
      rw [dconfGetStr, represents.get, lookup_storeAfter, latest_sets]
      cases lastListed (listed items) k <;> rfl

/-- A comment, two assignments of `a` with a third one commented out between them, and a blank line. -/
def sampleItems : List Item :=
  [.comment ⟨[], ['#', ' ', 'x', '=', '1'], false⟩, .assignment [] ['a'] ['1'] false true,
    .block ⟨[' '], ['/', '*'], false⟩ [⟨[], ['a', '=', '2'], false⟩] ⟨['\t'], ['*', '/'], false⟩, .blank [' '] true,
    .assignment ['\t'] ['a'] ['3'] true false]

theorem wellFormed_sampleItems : WellFormed sampleItems := by
  have key : IsKey ['a'] := by
    constructor <;> simp [Clean, isBlank, List.cons_prefix_cons]
  constructor
  · simp only [sampleItems, List.forall_mem_cons, Item.Proper]
    refine ⟨by decide, ⟨key, ?_⟩, by decide, trivial, ⟨key, ?_⟩, by simp⟩
    · constructor <;> simp [Clean]
    · constructor <;> simp [Clean]
  · intro line member
    simp only [lines, sampleItems, List.flatMap_cons, List.flatMap_nil, Item.lines, List.cons_append, List.nil_append,
      List.append_nil, List.mem_cons, List.not_mem_nil, or_false] at member
    rcases member with rfl | rfl | rfl | rfl | rfl | rfl | rfl <;>
      exact ⟨by simp [Blanks], by decide, by decide⟩

theorem config_reads_back_sample : ∃ d enough, (∀ iterations ≥ enough,
      dconfInit { rest := "# x=1\na=1\r\n /*\na=2\n\t*/\n \r\n\ta=\"3\"\n".toList } iterations = .returned (some d)) ∧
    dconfGetStr (some d) (some ['a']) none = some (some ['3']) ∧
    dconfGetStr (some d) (some ['x']) (some ['0']) = some (some ['0']) := by
  have few : (keysListed (listed sampleItems)).card ≤ 2 ^ 27 :=
    (List.toFinset_card_le _).trans (by decide)
  obtain ⟨d, enough, returns, get⟩ := (config_reads_back_iff wellFormed_sampleItems).mpr few
  refine ⟨d, enough, ?_, ?_, ?_⟩
  · have same : render sampleItems = "# x=1\na=1\r\n /*\na=2\n\t*/\n \r\n\ta=\"3\"\n".toList := by decide
    rwa [← same]
  · rw [get]
    decide
  · rw [get]
    decide

/-! ## Too many keys -/

/-- The number in binary, with `b` for 1. -/
def numbered (i : ℕ) : Text :=
  (List.range 28).map fun bit => if i.testBit bit then 'b' else 'a'

/-- So many lines, each with a key of its own and an empty value. -/
def manyItems (n : ℕ) : List Item :=
  (List.range n).map fun i => .assignment [] (numbered i) [] false false

theorem mem_numbered {c : Char} {i : ℕ} (member : c ∈ numbered i) : c = 'a' ∨ c = 'b' := by
  obtain ⟨bit, -, rfl⟩ := List.mem_map.mp member
  split
  · exact .inr rfl
  · exact .inl rfl

theorem numbered_injOn : Set.InjOn numbered (Set.Iio (2 ^ 28)) := by
  intro i small j small' same
  apply Nat.eq_of_testBit_eq
  intro bit
  by_cases bound : bit < 28
  · have char := congrArg (·[bit]?) same
    simp only [numbered, List.getElem?_map, List.getElem?_range bound, Option.map_some, Option.some_inj] at char
    cases set : i.testBit bit <;> cases set' : j.testBit bit <;> simp [set, set'] at char ⊢
  · have high : 2 ^ 28 ≤ 2 ^ bit := Nat.pow_le_pow_right (by omega) (by omega)
    rw [Nat.testBit_lt_two_pow (lt_of_lt_of_le small high), Nat.testBit_lt_two_pow (lt_of_lt_of_le small' high)]

theorem isKey_numbered (i : ℕ) : IsKey (numbered i) where
  clean := by
    intro c member
    rcases mem_numbered member with rfl | rfl <;> decide
  nonempty := by simp [numbered]
  noEquals := by
    intro member
    rcases mem_numbered member with same | same <;> exact absurd same (by decide)
  notBlank := by
    intro c first
    rcases mem_numbered (List.mem_of_mem_head? first) with rfl | rfl <;> decide
  notMarker := by
    intro marker known starts
    have first : ∀ c ∈ marker.head?, c = 'a' ∨ c = 'b' :=
      fun c first => mem_numbered (starts.subset (List.mem_of_mem_head? first))
    simp only [List.mem_cons, List.not_mem_nil, or_false] at known
    rcases known with rfl | rfl | rfl | rfl | rfl <;> exact absurd (first _ rfl) (by decide)

theorem wellFormed_manyItems (n : ℕ) : WellFormed (manyItems n) := by
  constructor
  · intro item member
    obtain ⟨i, -, rfl⟩ := List.mem_map.mp member
    exact ⟨isKey_numbered i, by simp [Clean], by simp⟩
  · intro line member
    rw [lines, manyItems, List.flatMap_map, List.mem_flatMap] at member
    obtain ⟨i, -, member⟩ := member
    obtain rfl := List.mem_singleton.mp member
    refine ⟨by simp [Blanks], ?_, ?_⟩
    · intro newline
      rcases List.mem_append.mp newline with inKey | behind
      · exact ((isKey_numbered i).clean _ inKey).2.2 rfl
      · exact absurd behind (by decide)
    · simp [Line.render, numbered, written, lineEnd]

theorem card_keysListed_manyItems {n : ℕ} (small : n ≤ 2 ^ 28) : (keysListed (listed (manyItems n))).card = n := by
  have keys : keysListed (listed (manyItems n)) = (Finset.range n).image numbered := by
    ext k
    simp [keysListed, listed, manyItems, List.filterMap_map, Item.setting, Function.comp_def]
  rw [keys, Finset.card_image_of_injOn, Finset.card_range]
  intro i low j low' same
  refine numbered_injOn ?_ ?_ same
  · exact lt_of_lt_of_le (Finset.mem_range.mp low) small
  · exact lt_of_lt_of_le (Finset.mem_range.mp low') small

/-- A file with one key more than the dictionary can grow to. -/
theorem config_too_many_keys : ¬∀ items, WellFormed items → ReadsBack items := by
  intro always
  have many : 2 ^ 27 < (keysListed (listed (manyItems (2 ^ 27 + 1)))).card := by
    rw [card_keysListed_manyItems (by omega)]
    omega
  exact not_readsBack (wellFormed_manyItems _) many (always _ (wellFormed_manyItems _))

end FsPkg.Conf
