import Mathlib.Data.List.Basic

/-! # Reading a text piece by piece

A reader takes the next piece from the front of what is left, and how long that piece is depends on what is left only.
Lines and buffers full of a text are such pieces. Where the text can be closed off, so that no piece reaches over a
place, the pieces before and behind it are found separately.
-/

namespace FsPkg.Machine

variable {α : Type*}

/-- At most so many pieces; the next one has `cut` elements behind its first. -/
def piecesWithin (cut : List α → ℕ) : ℕ → List α → List (List α)
  | 0, _ => []
  | _ + 1, [] => []
  | count + 1, x :: rest =>
    (x :: rest).take (cut (x :: rest) + 1) :: piecesWithin cut count ((x :: rest).drop (cut (x :: rest) + 1))

/-- The pieces of a text. -/
def pieces (cut : List α → ℕ) (text : List α) : List (List α) :=
  piecesWithin cut text.length text

section Pieces

variable {cut : List α → ℕ} {text : List α}

/-- There are no more pieces than elements. -/
theorem piecesWithin_eq_pieces {count : ℕ} (enough : text.length ≤ count) :
    piecesWithin cut count text = pieces cut text := by
  induction count using Nat.strongRecOn generalizing text with
  | _ count ih =>
    cases text with
    | nil => cases count <;> rfl
    | cons x rest =>
      obtain ⟨count, rfl⟩ := Nat.exists_eq_add_of_le' (Nat.le_trans (Nat.le_add_left 1 _) enough)
      have short : ((x :: rest).drop (cut (x :: rest) + 1)).length ≤ rest.length := by
        rw [List.length_drop, List.length_cons]
        omega
      have bound : rest.length ≤ count := Nat.le_of_succ_le_succ enough
      have behind := ih count (Nat.lt_succ_self _) (Nat.le_trans short bound)
      rw [pieces, List.length_cons, piecesWithin, piecesWithin, behind]
      rcases Nat.lt_or_eq_of_le bound with less | rfl
      · rw [ih rest.length (Nat.lt_succ_of_lt less) short]
      · rw [ih rest.length (Nat.lt_succ_self _) short]

@[simp] theorem pieces_nil (cut : List α → ℕ) : pieces cut [] = [] := rfl

theorem pieces_of_ne_nil (some_ : text ≠ []) :
    pieces cut text = text.take (cut text + 1) :: pieces cut (text.drop (cut text + 1)) := by
  obtain ⟨x, rest, rfl⟩ := List.exists_cons_of_ne_nil some_
  rw [pieces, List.length_cons, piecesWithin, piecesWithin_eq_pieces]
  rw [List.length_drop, List.length_cons]
  omega

theorem length_drop_lt (some_ : text ≠ []) : (text.drop (cut text + 1)).length < text.length := by
  have positive := List.length_pos_of_ne_nil some_
  rw [List.length_drop]
  omega

/-- Induction along the pieces of a text. -/
theorem pieces_induction (cut : List α → ℕ) {motive : List α → Prop} (nil : motive [])
    (next : ∀ text, text ≠ [] → motive (text.drop (cut text + 1)) → motive text) (text : List α) : motive text := by
  induction length : text.length using Nat.strongRecOn generalizing text with
  | _ n ih =>
    subst length
    rcases text.eq_nil_or_concat with rfl | ⟨_, _, rfl⟩
    · exact nil
    · exact next _ (by simp) (ih _ (length_drop_lt (by simp)) _ rfl)

theorem flatten_pieces (cut : List α → ℕ) (text : List α) : (pieces cut text).flatten = text := by
  induction text using pieces_induction cut with
  | nil => rfl
  | next text some_ ih => rw [pieces_of_ne_nil some_, List.flatten_cons, ih, List.take_append_drop]

theorem ne_nil_of_mem_pieces {piece : List α} (member : piece ∈ pieces cut text) : piece ≠ [] := by
  induction text using pieces_induction cut with
  | nil => contradiction
  | next text some_ ih =>
    rw [pieces_of_ne_nil some_] at member
    rcases List.mem_cons.mp member with rfl | later
    · exact fun none => (List.take_eq_nil_iff.mp none).elim (Nat.succ_ne_zero _) some_
    · exact ih later

/-- A text is closed if its pieces are the same whatever follows it. -/
structure ClosedTexts (cut : List α → ℕ) (Closed : List α → Prop) : Prop where
  cut_append : ∀ {text}, Closed text → text ≠ [] → ∀ behind, cut (text ++ behind) = cut text
  within : ∀ {text}, Closed text → text ≠ [] → cut text + 1 ≤ text.length
  drop : ∀ {text}, Closed text → text ≠ [] → Closed (text.drop (cut text + 1))

theorem pieces_append {Closed : List α → Prop} (texts : ClosedTexts cut Closed) (closed : Closed text)
    (behind : List α) : pieces cut (text ++ behind) = pieces cut text ++ pieces cut behind := by
  induction text using pieces_induction cut with
  | nil => rfl
  | next text some_ ih =>
    have within := texts.within closed some_
    rw [pieces_of_ne_nil some_, pieces_of_ne_nil (List.append_ne_nil_of_left_ne_nil some_ behind),
      texts.cut_append closed some_, List.take_append_of_le_length within, List.drop_append_of_le_length within,
      ih (texts.drop closed some_), List.cons_append]

end Pieces

/-! ## Places in a list of pieces -/

/-- An element of a list of lists stands in one of them. -/
theorem flatMap_eq_append_cons {β : Type*} {f : α → List β} {l : List α} {past future : List β} {y : β}
    (split : l.flatMap f = past ++ y :: future) :
    ∃ before x after inner outer, l = before ++ x :: after ∧ f x = inner ++ y :: outer ∧
      past = before.flatMap f ++ inner ∧ future = outer ++ after.flatMap f := by
  induction l generalizing past with
  | nil => exact absurd split.symm (List.append_ne_nil_of_right_ne_nil past (List.cons_ne_nil _ _))
  | cons x l ih =>
    rw [List.flatMap_cons] at split
    rcases List.append_eq_append_iff.mp split with ⟨rest, rfl, behind⟩ | ⟨rest, here, behind⟩
    · obtain ⟨before, x', after, inner, outer, rfl, found, rfl, rfl⟩ := ih behind
      refine ⟨x :: before, x', after, inner, outer, rfl, found, ?_, rfl⟩
      rw [List.flatMap_cons, List.append_assoc]
    · cases rest with
      | nil =>
        rw [List.append_nil] at here
        rw [List.nil_append] at behind
        obtain ⟨before, x', after, inner, outer, rfl, found, nothing, rfl⟩ :=
          ih (show l.flatMap f = [] ++ y :: future from behind.symm)
        refine ⟨x :: before, x', after, inner, outer, rfl, found, ?_, rfl⟩
        rw [List.flatMap_cons, List.append_assoc, ← nothing, here, List.append_nil]
      | cons y' outer =>
        obtain ⟨rfl, rfl⟩ := List.cons.inj behind
        exact ⟨[], x, l, past, outer, rfl, here, rfl, rfl⟩

/-- A position in the text is in one piece only. -/
theorem piece_unique {before before' after after' : List (List α)} {piece piece' : List α} {position : ℕ}
    (same : before ++ piece :: after = before' ++ piece' :: after')
    (low : before.flatten.length ≤ position) (high : position < before.flatten.length + piece.length)
    (low' : before'.flatten.length ≤ position) (high' : position < before'.flatten.length + piece'.length) :
    before = before' ∧ piece = piece' ∧ after = after' := by
  rcases List.append_eq_append_iff.mp same with ⟨between, rfl, behind⟩ | ⟨between, rfl, behind⟩
  · cases between with
    | nil =>
      obtain ⟨rfl, rfl⟩ := List.cons.inj behind
      exact ⟨(List.append_nil _).symm, rfl, rfl⟩
    | cons first between =>
      obtain ⟨rfl, -⟩ := List.cons.inj behind
      rw [List.flatten_append, List.length_append, List.flatten_cons, List.length_append] at low'
      omega
  · cases between with
    | nil =>
      obtain ⟨rfl, rfl⟩ := List.cons.inj behind
      exact ⟨List.append_nil _, rfl, rfl⟩
    | cons first between =>
      obtain ⟨rfl, -⟩ := List.cons.inj behind
      rw [List.flatten_append, List.length_append, List.flatten_cons, List.length_append] at low
      omega

end FsPkg.Machine
