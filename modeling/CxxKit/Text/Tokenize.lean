import CxxKit.Text.StrSplit

/-!
`tokenize` and `tokenize_first` of `text/string_encode.cpp`.  The first goes over the text like
`utils::string_split` and leaves out the empty fields; the second takes one token off the front.
-/

namespace CxxKit.StrSplit

open List Option Splitting

variable {source : Text} {delimiter : UInt8}

/-- The loop of `tokenize`, at index `i` with the last token beginning at `last`. -/
def tokenizeFrom (delimiter : UInt8) (source : Text) (last i : Nat) : List Text :=
  if i < source.length then
    if source[i]? = some delimiter then
      (if i ≠ last then [view source last (i - last)] else []) ++
        tokenizeFrom delimiter source (i + 1) (i + 1)
    else tokenizeFrom delimiter source last (i + 1)
  else if last ≠ source.length then [view source last (source.length - last)]
  else []
termination_by source.length - i

/-- `tokenize`: the value returned, and the fields. -/
def tokenize (source : Text) (delimiter : UInt8) : Nat × List Text :=
  ((tokenizeFrom delimiter source 0 0).length, tokenizeFrom delimiter source 0 0)

/-- `tokenize_first`: the token and the rest, or false. -/
def tokenizeFirst (source : Text) (delimiter : UInt8) : Option (Text × Text) :=
  match findChar source delimiter 0 with
  | none => none
  | some leftPos =>
    let rightPos := searchFrom (fun i => source[i]? != some delimiter) source.length (leftPos + 1)
    some (view source 0 leftPos, source.drop rightPos)

/-- The tokens are the fields that are not empty. -/
theorem tokenizeFrom_eq {last i : Nat} (hlast : last ≤ i) (hi : i ≤ source.length) :
    tokenizeFrom delimiter source last i =
      (stringSplitFrom delimiter source last i).filter (· ≠ []) := by
  rw [tokenizeFrom, stringSplitFrom]
  split
  next hlt =>
    split
    next =>
      have hpos : i ≠ last ↔ 0 < i - last := by omega
      have hfields := filter_append (p := (· ≠ [])) [view source last (i - last)]
        (stringSplitFrom delimiter source (i + 1) (i + 1))
      rw [filter_view (by omega), singleton_append] at hfields
      rw [tokenizeFrom_eq (Nat.le_refl _) hlt, hfields]
      simp only [hpos]
    next => exact tokenizeFrom_eq (Nat.le_succ_of_le hlast) hlt
  next hge =>
    have hpos : last ≠ source.length ↔ 0 < source.length - last := by omega
    rw [← view_to_end, filter_view (by omega)]
    simp only [hpos]
termination_by source.length - i

/-- Dropping to where a search stops drops what the search passes over. -/
theorem drop_searchFrom {p : Nat → Bool} {q : UInt8 → Bool}
    (hp : ∀ i c, source[i]? = some c → p i = q c) (i : Nat) :
    source.drop (searchFrom p source.length i) = (source.drop i).dropWhile fun c => !q c := by
  rcases Nat.lt_or_ge i source.length with hlt | hge
  · have hq := hp i source[i] (getElem?_eq_getElem hlt)
    rw [drop_eq_getElem_cons hlt, dropWhile_cons, ← hq]
    cases hpi : p i with
    | true =>
      rw [searchFrom_of_pos hlt hpi, drop_eq_getElem_cons hlt]
      rfl
    | false =>
      rw [searchFrom_of_neg hlt (by rw [hpi]; exact Bool.false_ne_true), drop_searchFrom hp (i + 1)]
      rfl
  · rw [searchFrom_of_le hge, drop_of_length_le hge, drop_length, dropWhile_nil]
termination_by source.length - i

theorem take_eq_takeWhile {n : Nat} {p : UInt8 → Bool} (h : source.drop n = source.dropWhile p) :
    source.take n = source.takeWhile p := by
  have hsplit : source.take n ++ source.drop n = source.takeWhile p ++ source.drop n := by
    rw [take_append_drop, h, takeWhile_append_dropWhile]
  exact append_cancel_right hsplit

theorem findChar_eq_none_iff : findChar source delimiter 0 = none ↔ delimiter ∉ source := by
  have hfound := searchFrom_found (fun i => source[i]? == some delimiter) source.length 0
  unfold findChar
  dsimp only
  split
  next hlt =>
    have hmem : delimiter ∈ source := mem_of_getElem? (beq_iff_eq.mp (hfound.holds hlt))
    simp [hmem]
  next hge =>
    refine iff_of_true rfl fun hmem => ?_
    obtain ⟨i, hi⟩ := mem_iff_getElem?.mp hmem
    have hlt := (List.getElem?_eq_some_iff.mp hi).1
    exact hfound.before i (Nat.zero_le i) (by omega) (beq_iff_eq.mpr hi)

/-- What is in front of the first delimiter, and behind the delimiters that follow it. -/
theorem tokenizeFirst_eq (source : Text) (delimiter : UInt8) (h : delimiter ∈ source) :
    tokenizeFirst source delimiter = some (source.takeWhile (· != delimiter),
      (source.dropWhile (· != delimiter)).dropWhile (· == delimiter)) := by
  unfold tokenizeFirst
  split
  next hnone => exact absurd h (findChar_eq_none_iff.mp hnone)
  next left hleft =>
    obtain ⟨hlt, heq⟩ := ite_none_right_eq_some.mp hleft
    obtain rfl := Option.some.inj heq
    have hfound := searchFrom_found (fun i => source[i]? == some delimiter) source.length 0
    have hdrop := drop_searchFrom (q := (· == delimiter))
      (p := fun i => source[i]? == some delimiter)
      (fun i c (hc : source[i]? = some c) => by rw [hc]; rfl) 0
    set n := searchFrom (fun i => source[i]? == some delimiter) source.length 0
    have hn : source[n]? = some delimiter := beq_iff_eq.mp (hfound.holds hlt)
    have hrun := drop_searchFrom (q := (· != delimiter))
      (p := fun i => source[i]? != some delimiter)
      (fun i c (hc : source[i]? = some c) => by rw [hc]; rfl) (n + 1)
    have hhead : source.drop n = delimiter :: source.drop (n + 1) := by
      rw [List.drop_eq_getElem_cons hlt, (List.getElem?_eq_some_iff.mp hn).2]
    have htoken : view source 0 n = source.takeWhile (· != delimiter) :=
      take_eq_takeWhile hdrop
    have hrest : (source.dropWhile (· != delimiter)).dropWhile (· == delimiter) =
        (source.drop (n + 1)).dropWhile (· == delimiter) := by
      rw [← show source.drop n = source.dropWhile (· != delimiter) from hdrop, hhead,
        dropWhile_cons, if_pos (beq_self_eq_true delimiter)]
    rw [htoken, hrest]
    simp only [bne, Bool.not_not] at hrun ⊢
    rw [hrun]

/-- **Tokens.** `tokenize` returns the pieces of the split at the delimiter that are not empty, and
their number; `tokenize_first` returns true exactly if the delimiter occurs, with the text before
its first occurrence and the text behind the run of delimiters there. -/
theorem tokens_exact (source : Text) (delimiter : UInt8) : tokenize source delimiter =
        (((strSplit source (.char delimiter)).filter (· ≠ [])).length,
          (strSplit source (.char delimiter)).filter (· ≠ [])) ∧
      tokenizeFirst source delimiter =
        if delimiter ∈ source then
          some (source.takeWhile (· != delimiter),
            (source.dropWhile (· != delimiter)).dropWhile (· == delimiter))
        else none := by
  constructor
  · rw [tokenize, tokenizeFrom_eq (Nat.le_refl 0) (Nat.zero_le _), ← stringSplit_eq, stringSplit]
  · split
    next h => exact tokenizeFirst_eq source delimiter h
    next h => rw [tokenizeFirst, findChar_eq_none_iff.mpr h]

end CxxKit.StrSplit
