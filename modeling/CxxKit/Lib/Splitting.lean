import Mathlib.Data.List.Basic

/-!
# Splitting a list at the words of a set

A text is split at the words of a set `W` from left to right: the first piece ends where the first
word begins, and the rest is split after that word. `IsSplit W text pieces delims` says so of a
list of pieces without a loop: the pieces and the words between them rebuild the text, and no word
begins inside a piece.

* `IsSplit.unique`: when the words are nonempty and of one length, a text has one split.
* `IsSplit.of_next`, `IsSplit.of_none`: a split of what is left of a text at a position, from the
  position of the next word or from there being none.
* `searchFrom`: the loop that looks for the next position with a property.
-/

namespace Splitting

open List

/-! ### Searching for a position -/

/-- The first position from `i` on and below `stop` that has the property, or `stop`. -/
def searchFrom (p : Nat → Bool) (stop i : Nat) : Nat :=
  if i < stop then
    if p i then i else searchFrom p stop (i + 1)
  else stop
termination_by stop - i

section Search

variable {p : Nat → Bool} {stop : Nat}

variable {i : Nat}

theorem searchFrom_of_le (h : stop ≤ i) : searchFrom p stop i = stop := by
  rw [searchFrom, if_neg (by omega)]

theorem searchFrom_of_pos (h : i < stop) (hp : p i = true) : searchFrom p stop i = i := by
  rw [searchFrom, if_pos h, if_pos hp]

theorem searchFrom_of_neg (h : i < stop) (hp : ¬ p i = true) :
    searchFrom p stop i = searchFrom p stop (i + 1) := by
  rw [searchFrom, if_pos h, if_neg hp]

/-- What the search says of its result. -/
structure Found (p : Nat → Bool) (stop i r : Nat) : Prop where
  le_stop : r ≤ stop
  start_le : r < stop → i ≤ r
  before : ∀ j, i ≤ j → j < r → ¬ p j = true
  holds : r < stop → p r = true

theorem searchFrom_found (p : Nat → Bool) (stop i : Nat) :
    Found p stop i (searchFrom p stop i) := by
  by_cases h : i < stop
  · by_cases hp : p i = true
    · rw [searchFrom_of_pos h hp]
      exact ⟨Nat.le_of_lt h, fun _ => Nat.le_refl i, fun j hj hlt => absurd hlt (by omega),
        fun _ => hp⟩
    · have ih := searchFrom_found p stop (i + 1)
      rw [searchFrom_of_neg h hp]
      refine ⟨ih.le_stop, fun hlt => Nat.le_of_succ_le (ih.start_le hlt), fun j hj hlt => ?_,
        ih.holds⟩
      rcases Nat.eq_or_lt_of_le hj with rfl | hgt
      · exact hp
      · exact ih.before j hgt hlt
  · rw [searchFrom_of_le (Nat.le_of_not_lt h)]
    exact ⟨Nat.le_refl stop, fun hlt => absurd hlt (Nat.lt_irrefl stop),
      fun j hj hlt => absurd (Nat.lt_of_le_of_lt hj hlt) h,
      fun hlt => absurd hlt (Nat.lt_irrefl stop)⟩
termination_by stop - i

end Search

/-! ### Splits -/

variable {α : Type*} {W : List α → Prop}

/-- A word of `W` begins at position `i` of the text. -/
def Occurs (W : List α → Prop) (text : List α) (i : Nat) : Prop := ∃ d, W d ∧ d <+: text.drop i

/-- The pieces with the delimiters between them, in turn. -/
def interleave : List (List α) → List (List α) → List α
  | p :: ps, d :: ds => p ++ (d ++ interleave ps ds)
  | p :: _, [] => p
  | [], _ => []

/-- No word begins inside a piece, in the text that is left there. -/
def Leftmost (W : List α → Prop) : List (List α) → List (List α) → Prop
  | p :: ps, ds => (∀ i < p.length, ¬ Occurs W (interleave (p :: ps) ds) i) ∧ Leftmost W ps ds.tail
  | [], _ => True

/-- `pieces` is the text split at the words of `W`, and `delims` are the words it was split at. -/
structure IsSplit (W : List α → Prop) (text : List α) (pieces delims : List (List α)) : Prop where
  counted : pieces.length = delims.length + 1
  rebuild : interleave pieces delims = text
  words : ∀ d ∈ delims, W d
  leftmost : Leftmost W pieces delims

namespace IsSplit

variable {text p d rest : List α} {start : Nat} {pieces delims ps ds : List (List α)}

theorem single (hnone : ∀ i < text.length, ¬ Occurs W text i) : IsSplit W text [text] [] :=
  ⟨rfl, rfl, fun _ hd => absurd hd not_mem_nil, hnone, trivial⟩

theorem cons (hd : W d) (hnone : ∀ i < p.length, ¬ Occurs W (p ++ (d ++ rest)) i)
    (hrest : IsSplit W rest ps ds) : IsSplit W (p ++ (d ++ rest)) (p :: ps) (d :: ds) where
  counted := congrArg (· + 1) hrest.counted
  rebuild := by rw [interleave, hrest.rebuild]
  words := forall_mem_cons.mpr ⟨hd, hrest.words⟩
  leftmost := ⟨by rw [interleave, hrest.rebuild]; exact hnone, hrest.leftmost⟩

/-- A split is a last piece, or a piece and a word followed by a split. -/
theorem inv (h : IsSplit W text pieces delims) :
    (pieces = [text] ∧ delims = [] ∧ ∀ i < text.length, ¬ Occurs W text i) ∨
      ∃ p d rest ps ds, pieces = p :: ps ∧ delims = d :: ds ∧ text = p ++ (d ++ rest) ∧ W d ∧
        (∀ i < p.length, ¬ Occurs W text i) ∧ IsSplit W rest ps ds := by
  obtain ⟨hcount, rfl, hwords, hleft⟩ := h
  match pieces, delims with
  | [], _ => simp at hcount
  | [p], [] => exact .inl ⟨rfl, rfl, hleft.1⟩
  | p :: q :: ps, [] => simp at hcount
  | p :: ps, d :: ds =>
    obtain ⟨hd, hds⟩ := forall_mem_cons.mp hwords
    exact .inr ⟨p, d, interleave ps ds, ps, ds, rfl, rfl, rfl, hd, hleft.1,
      ⟨Nat.succ.inj hcount, rfl, hds, hleft.2⟩⟩

/-- A word that follows a piece occurs at the end of the piece. -/
theorem occurs_after (hd : W d) : Occurs W (p ++ (d ++ rest)) p.length :=
  ⟨d, hd, by rw [drop_left]; exact prefix_append d rest⟩

/-- **A text has one split**, when the words it is split at are nonempty and of one length. -/
theorem unique {n : Nat} (hn : 0 < n) (hlen : ∀ d, W d → d.length = n) :
    ∀ {pieces pieces' delims delims' : List (List α)} {text : List α},
      IsSplit W text pieces delims → IsSplit W text pieces' delims' → pieces = pieces'
  | [], _, _, _, _, h, _ => absurd h.counted (by simp)
  | p :: ps, pieces', delims, delims', text, h, h' => by
    rcases h.inv with ⟨hp, -, hnone⟩ | ⟨p, d, rest, ps, ds, hp, -, htext, hd, hnone, hrest⟩
    · rcases h'.inv with ⟨hp', -, -⟩ | ⟨p', d', rest', ps', ds', -, -, htext', hd', -, -⟩
      · rw [hp, hp']
      · subst htext'
        have hpos := hlen d' hd'
        exact absurd (occurs_after hd') (hnone p'.length (by simp only [length_append]; omega))
    · cases hp
      rcases h'.inv with
        ⟨-, -, hnone'⟩ | ⟨p', d', rest', ps', ds', hp', -, htext', hd', hnone', hrest'⟩
      · subst htext
        have hpos := hlen d hd
        exact absurd (occurs_after hd) (hnone' p.length (by simp only [length_append]; omega))
      · -- the first words begin at one position: neither begins inside the other piece
        have hge : ¬ p.length < p'.length := fun hlt => hnone' _ hlt (htext ▸ occurs_after hd)
        have hle : ¬ p'.length < p.length := fun hlt => hnone _ hlt (htext' ▸ occurs_after hd')
        obtain ⟨rfl, hafter⟩ := append_inj (htext.symm.trans htext') (by omega)
        obtain ⟨rfl, rfl⟩ := append_inj hafter ((hlen d hd).trans (hlen d' hd').symm)
        rw [hp', unique hn hlen hrest hrest']

theorem not_infix (hne : ∀ d, W d → d ≠ []) (h : IsSplit W text pieces delims) (hp : p ∈ pieces)
    (hd : W d) : ¬ d <:+: p := by
  induction pieces generalizing text delims with
  | nil => cases hp
  | cons q qs ih =>
    -- a word inside the first piece begins in it
    have hfirst : ∀ rest, (∀ i < q.length, ¬ Occurs W (q ++ rest) i) → ¬ d <:+: q := by
      rintro rest hnone ⟨before, after, rfl⟩
      refine hnone before.length ?_ ⟨d, hd, ?_⟩
      · have := length_pos_iff.mpr (hne d hd)
        simp only [length_append]
        omega
      · rw [append_assoc, append_assoc, drop_left]
        exact ⟨_, rfl⟩
    rcases h.inv with ⟨hq, -, hnone⟩ | ⟨_, d', rest, _, ds, hq, -, rfl, -, hnone, hrest⟩
    · cases hq
      cases mem_singleton.mp hp
      exact hfirst [] (by rwa [append_nil])
    · cases hq
      rcases mem_cons.mp hp with rfl | hmem
      · exact hfirst _ hnone
      · exact ih hrest hmem

/-! ### Splits of what is left at a position -/

theorem occurs_drop {i : Nat} : Occurs W (text.drop start) i ↔ Occurs W text (start + i) := by
  unfold Occurs
  rw [drop_drop]

/-- The next word begins at `stop`: what is left of the text is the piece up to there, the word, and
a split of what follows the word. -/
theorem of_next {stop : Nat} (hle : start ≤ stop) (hd : W d) (hstart : d <+: text.drop stop)
    (hnone : ∀ i, start ≤ i → i < stop → ¬ Occurs W text i)
    (hrest : IsSplit W (text.drop (stop + d.length)) ps ds) :
    IsSplit W (text.drop start) ((text.drop start).take (stop - start) :: ps) (d :: ds) := by
  have hsplit : text.drop start =
      (text.drop start).take (stop - start) ++ (d ++ text.drop (stop + d.length)) := by
    obtain ⟨rest, hrest⟩ := hstart
    have hdrop : text.drop (stop + d.length) = rest := by
      rw [← drop_drop, ← hrest, drop_left]
    have hstop : (text.drop start).drop (stop - start) = text.drop stop := by
      rw [drop_drop, Nat.add_sub_cancel' hle]
    rw [hdrop, hrest, ← hstop, take_append_drop]
  have hcons := cons (p := (text.drop start).take (stop - start)) hd (fun i hi => ?_) hrest
  · rwa [← hsplit] at hcons
  · rw [← hsplit, occurs_drop]
    rw [length_take] at hi
    exact hnone (start + i) (Nat.le_add_right _ _) (by omega)

/-- No word begins from `start` on: what is left of the text is the last piece. -/
theorem of_none (hnone : ∀ i, start ≤ i → i < text.length → ¬ Occurs W text i) :
    IsSplit W (text.drop start) [text.drop start] [] := by
  refine single fun i hi => ?_
  rw [occurs_drop]
  rw [length_drop] at hi
  exact hnone (start + i) (Nat.le_add_right _ _) (by omega)

end IsSplit

end Splitting
