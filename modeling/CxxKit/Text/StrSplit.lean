import CxxKit.Lib.Splitting

/-!
# Splitting text

`str_split` (`text/str_split.hpp`) for its three kinds of delimiter, with and without empty tokens,
and `utils::string_split` (`text/string_utils.cpp`). A view is the list of its bytes, and a token is
the stretch of the text it views; a delimiter found in the text is its offset and size there.

The loops are written separately in the source and stay separate here. Each is shown to compute the
split of the text at the delimiter's words (`Splitting.IsSplit`), of which there is only one, so
that they agree with each other without being compared pairwise.
-/

namespace CxxKit.StrSplit

open List Option Splitting

abbrev Text := List UInt8

/-- `StringView(data + start, len)`. -/
def view (text : Text) (start len : Nat) : Text := (text.drop start).take len

/-- `StringView::find(char, pos)`; `none` is `npos`. -/
def findChar (text : Text) (c : UInt8) (pos : Nat) : Option Nat :=
  let found := searchFrom (fun i => text[i]? == some c) text.length pos
  if found < text.length then some found else none

/-- `StringView::find(StringView, pos)`. -/
def findView (text needle : Text) (pos : Nat) : Option Nat :=
  let found := searchFrom (fun i => needle.isPrefixOf (text.drop i)) text.length pos
  if found < text.length then some found else none

/-! ### Delimiters -/

/-- The loop of the constructor of `by_any_of`: it marks the characters before the terminating
NUL. -/
def markAll (table : UInt8 → Bool) : List UInt8 → UInt8 → Bool
  | [] => table
  | c :: cs => if c = 0 then table else markAll (Function.update table c true) cs

/-- `by_any_of::mTable`. -/
def byAnyOf (delims : List UInt8) : UInt8 → Bool := markAll (fun _ => false) delims

/-- `by_any_of::find`: offset and size of the delimiter found. -/
def findAnyOf (table : UInt8 → Bool) (text : Text) (pos : Nat) : Nat × Nat :=
  let i := searchFrom (fun i => text[i]?.any table) text.length pos
  if i < text.length then (i, 1) else (text.length, 0)

/-- `by_string::find`. -/
def findString (delims text : Text) (pos : Nat) : Nat × Nat :=
  if delims.isEmpty && !text.isEmpty then (pos + 1, 0)
  else
    match findView text delims pos with
    | none => (text.length, 0)
    | some found => (found, delims.length)

/-- `find_delim` for a `char`. -/
def findDelimChar (delim : UInt8) (text : Text) (pos : Nat) : Nat × Nat :=
  match findChar text delim pos with
  | none => (text.length, 0)
  | some found => (found, 1)

/-- The delimiters of `str_split`: a `char`, or the argument of `by_any_of` or of `by_string`. -/
inductive Delimiter where
  | char (c : UInt8)
  | anyOf (delims : List UInt8)
  | string (delims : Text)

/-- `find_delim`. -/
def findDelim : Delimiter → Text → Nat → Nat × Nat
  | .char c => findDelimChar c
  | .anyOf delims => findAnyOf (byAnyOf delims)
  | .string delims => findString delims

/-- What the three searches have in common: the first position with the property, and the size `n`
of the delimiter there. -/
def firstAt (p : Nat → Bool) (n : Nat) (text : Text) (pos : Nat) : Nat × Nat :=
  if searchFrom p text.length pos < text.length then (searchFrom p text.length pos, n)
  else (text.length, 0)

theorem findDelimChar_eq (c : UInt8) (text : Text) (pos : Nat) :
    findDelimChar c text pos = firstAt (fun i => text[i]? == some c) 1 text pos := by
  unfold findDelimChar findChar firstAt
  by_cases h : searchFrom (fun i => text[i]? == some c) text.length pos < text.length
  · simp only [if_pos h]
  · simp only [if_neg h]

theorem findAnyOf_eq (table : UInt8 → Bool) (text : Text) (pos : Nat) :
    findAnyOf table text pos = firstAt (fun i => text[i]?.any table) 1 text pos := rfl

theorem findString_eq {delims : Text} (hne : delims ≠ []) (text : Text) (pos : Nat) :
    findString delims text pos =
      firstAt (fun i => delims.isPrefixOf (text.drop i)) delims.length text pos := by
  unfold findString findView firstAt
  rw [isEmpty_eq_false_iff.mpr hne, Bool.false_and, if_neg Bool.false_ne_true]
  by_cases h : searchFrom (fun i => delims.isPrefixOf (text.drop i)) text.length pos < text.length
  · simp only [if_pos h]
  · simp only [if_neg h]

variable {text d : Text} {pos : Nat} {c : UInt8}

theorem firstAt_forward {p : Nat → Bool} {n : Nat}
    (h : (firstAt p n text pos).2 ≠ 0) : pos ≤ (firstAt p n text pos).1 := by
  unfold firstAt at h ⊢
  split
  case isTrue hlt => exact (searchFrom_found p text.length pos).start_le hlt
  case isFalse hge =>
    rw [if_neg hge] at h
    exact absurd rfl h

/-- A delimiter that is found is found at `pos` or after it, so that the loops move on. -/
theorem findDelim_forward (delim : Delimiter) (text : Text) (pos : Nat)
    (h : (findDelim delim text pos).2 ≠ 0) : pos ≤ (findDelim delim text pos).1 := by
  cases delim with
  | char c =>
    rw [findDelim, findDelimChar_eq] at h ⊢
    exact firstAt_forward h
  | anyOf delims => exact firstAt_forward h
  | string delims =>
    rw [findDelim] at h ⊢
    rcases eq_or_ne delims [] with rfl | hne
    · -- an empty delimiter has size 0 wherever it is found
      unfold findString at h
      split at h
      · exact absurd rfl h
      · split at h <;> exact absurd rfl h
    · rw [findString_eq hne] at h ⊢
      exact firstAt_forward h

/-! ### The loops -/

/-- The loop of `str_split(text, char)`. -/
def splitCharFrom (delim : UInt8) (text : Text) (start : Nat) : List Text :=
  if start ≤ text.length then
    view text start (searchFrom (fun i => text[i]? == some delim) text.length start - start) ::
      splitCharFrom delim text
        (searchFrom (fun i => text[i]? == some delim) text.length start + 1)
  else []
termination_by text.length + 1 - start
decreasing_by
  have hfound := searchFrom_found (fun i => text[i]? == some delim) text.length start
  have hle := hfound.start_le
  have hstop := hfound.le_stop
  omega

/-- The loop of `str_split(text, by_any_of)` and of `str_split(text, by_string)`. -/
def splitFrom (delim : Delimiter) (text : Text) (start : Nat) : List Text :=
  if start ≤ text.length then
    if (findDelim delim text start).2 = 0 then [view text start (text.length - start)]
    else
      view text start ((findDelim delim text start).1 - start) ::
        splitFrom delim text ((findDelim delim text start).1 + (findDelim delim text start).2)
  else []
termination_by text.length + 1 - start
decreasing_by
  have hforward := findDelim_forward delim text start (by assumption)
  omega

/-- The loop of `str_split(text, delim, skip_empty)`. -/
def splitSkipFrom (delim : Delimiter) (text : Text) (start : Nat) : List Text :=
  if start ≤ text.length then
    if (findDelim delim text start).2 = 0 then
      if 0 < text.length - start then [view text start (text.length - start)] else []
    else
      (if 0 < (findDelim delim text start).1 - start then
        [view text start ((findDelim delim text start).1 - start)] else []) ++
        splitSkipFrom delim text ((findDelim delim text start).1 + (findDelim delim text start).2)
  else []
termination_by text.length + 1 - start
decreasing_by
  have hforward := findDelim_forward delim text start (by assumption)
  omega

/-- The loop of `utils::string_split`, at index `i` with the last field beginning at `last`. -/
def stringSplitFrom (delimiter : UInt8) (source : Text) (last i : Nat) : List Text :=
  if i < source.length then
    if source[i]? = some delimiter then
      view source last (i - last) :: stringSplitFrom delimiter source (i + 1) (i + 1)
    else stringSplitFrom delimiter source last (i + 1)
  else [source.drop last]
termination_by source.length - i

/-- `str_split(text, delim)`, the three overloads. -/
def strSplit (text : Text) : Delimiter → List Text
  | .char c => splitCharFrom c text 0
  | .anyOf delims => splitFrom (.anyOf delims) text 0
  | .string delims => splitFrom (.string delims) text 0

/-- `str_split(text, delim, skip_empty)`. -/
def strSplitSkipEmpty (text : Text) (delim : Delimiter) : List Text := splitSkipFrom delim text 0

/-- `str_split(text, delim, allow_empty)`. -/
def strSplitAllowEmpty (text : Text) (delim : Delimiter) : List Text := strSplit text delim

/-- `utils::string_split(source, delimiter)`. -/
def stringSplit (source : Text) (delimiter : UInt8) : List Text :=
  stringSplitFrom delimiter source 0 0

/-! ### The words of a delimiter -/

/-- The stretches of text at which a delimiter splits. -/
def Delimiter.Word : Delimiter → Text → Prop
  | .char c => fun d => d = [c]
  | .anyOf delims => fun d => ∃ c, byAnyOf delims c = true ∧ d = [c]
  | .string delims => fun d => d = delims

/-- The length of a delimiter's words. -/
def Delimiter.size : Delimiter → Nat
  | .char _ => 1
  | .anyOf _ => 1
  | .string delims => delims.length

/-- A character, a nonempty set of characters, or a nonempty string. -/
def Delimiter.NonEmpty : Delimiter → Prop
  | .char _ => True
  | .anyOf delims => ∃ c, byAnyOf delims c = true
  | .string delims => delims ≠ []

variable {delim : Delimiter}

theorem Delimiter.length_of_word (h : delim.Word d) : d.length = delim.size := by
  cases delim with
  | char c => rw [show d = [c] from h]; rfl
  | anyOf delims =>
    obtain ⟨c, -, rfl⟩ := h
    rfl
  | string delims => rw [show d = delims from h]; rfl

theorem Delimiter.size_pos (h : delim.NonEmpty) : 0 < delim.size := by
  cases delim with
  | char c | anyOf delims => exact Nat.zero_lt_one
  | string delims => exact length_pos_iff.mpr h

theorem singleton_prefix_drop {i : Nat} : [c] <+: text.drop i ↔ text[i]? = some c := by
  rw [← head?_drop]
  cases text.drop i with
  | nil => simp
  | cons x xs => simp [cons_prefix_cons, eq_comm]

/-- The property that the search of a delimiter looks for. -/
def Delimiter.at : Delimiter → Text → Nat → Bool
  | .char c => fun text i => text[i]? == some c
  | .anyOf delims => fun text i => text[i]?.any (byAnyOf delims)
  | .string delims => fun text i => delims.isPrefixOf (text.drop i)

theorem Delimiter.at_iff (delim : Delimiter) (text : Text) (i : Nat) :
    delim.at text i = true ↔ Occurs delim.Word text i := by
  cases delim with
  | char c =>
    constructor
    · intro h
      exact ⟨[c], rfl, singleton_prefix_drop.mpr (beq_iff_eq.mp h)⟩
    · rintro ⟨_, rfl, hword⟩
      exact beq_iff_eq.mpr (singleton_prefix_drop.mp hword)
  | anyOf delims =>
    constructor
    · intro h
      obtain ⟨c, hc, htable⟩ := (any_eq_true _ _).mp h
      exact ⟨[c], ⟨c, htable, rfl⟩, singleton_prefix_drop.mpr hc⟩
    · rintro ⟨_, ⟨c, htable, rfl⟩, hword⟩
      exact (any_eq_true _ _).mpr ⟨c, singleton_prefix_drop.mp hword, htable⟩
  | string delims =>
    constructor
    · intro h
      exact ⟨delims, rfl, isPrefixOf_iff_prefix.mp h⟩
    · rintro ⟨_, rfl, hword⟩
      exact isPrefixOf_iff_prefix.mpr hword

theorem findDelim_eq (h : delim.NonEmpty) (text : Text) (pos : Nat) :
    findDelim delim text pos = firstAt (delim.at text) delim.size text pos := by
  cases delim with
  | char c => exact findDelimChar_eq c text pos
  | anyOf delims => exact findAnyOf_eq _ text pos
  | string delims => exact findString_eq h text pos

/-- The word `d` is the next one from `pos` on, and it is what the search finds. -/
structure NextWord (delim : Delimiter) (text : Text) (pos : Nat) (d : Text) : Prop where
  word : delim.Word d
  size_eq : (findDelim delim text pos).2 = d.length
  forward : pos ≤ (findDelim delim text pos).1
  here : d <+: text.drop (findDelim delim text pos).1
  first : ∀ i, pos ≤ i → i < (findDelim delim text pos).1 → ¬ Occurs delim.Word text i

open Delimiter

/-- **The search of a delimiter**: nothing is found when no word begins from `pos` on, and otherwise
the next word is. -/
theorem findDelim_cases (h : delim.NonEmpty) (text : Text) (pos : Nat) :
    ((findDelim delim text pos).2 = 0 ∧
        ∀ i, pos ≤ i → i < text.length → ¬ Occurs delim.Word text i) ∨
      ∃ d, NextWord delim text pos d := by
  have hfound := searchFrom_found (delim.at text) text.length pos
  have hbefore := fun i hi hlt => mt (delim.at_iff text i).mpr (hfound.before i hi hlt)
  have heq := findDelim_eq h text pos
  rw [firstAt] at heq
  split at heq
  case isTrue hlt =>
    obtain ⟨d, hd, hword⟩ := (delim.at_iff text _).mp (hfound.holds hlt)
    refine .inr ⟨d, hd, ?_, ?_, ?_, ?_⟩
    · rw [heq, length_of_word hd]
    · rw [heq]
      exact hfound.start_le hlt
    · rw [heq]
      exact hword
    · rw [heq]
      exact hbefore
  case isFalse hge =>
    have hstop : searchFrom (delim.at text) text.length pos = text.length :=
      Nat.le_antisymm hfound.le_stop (Nat.le_of_not_lt hge)
    rw [hstop] at hbefore
    exact .inl ⟨by rw [heq], hbefore⟩

theorem NextWord.size_ne_zero (h : delim.NonEmpty)
    (hnext : NextWord delim text pos d) : (findDelim delim text pos).2 ≠ 0 := by
  rw [hnext.size_eq, length_of_word hnext.word]
  exact Nat.pos_iff_ne_zero.mp (size_pos h)

/-- A word that is found lies inside the text. -/
theorem NextWord.end_le (h : delim.NonEmpty) (hnext : NextWord delim text pos d) :
    (findDelim delim text pos).1 + (findDelim delim text pos).2 ≤ text.length := by
  have hlen := hnext.here.length_le
  have hne := hnext.size_ne_zero h
  have hsize := hnext.size_eq
  rw [length_drop] at hlen
  omega

/-! ### Every loop computes the split -/

theorem view_to_end (text : Text) (start : Nat) :
    view text start (text.length - start) = text.drop start := by
  rw [view, take_of_length_le (length_drop ▸ Nat.le_refl _)]

theorem splitFrom_isSplit (h : delim.NonEmpty) (text : Text) (start : Nat)
    (hstart : start ≤ text.length) :
    ∃ ds, IsSplit delim.Word (text.drop start) (splitFrom delim text start) ds := by
  rw [splitFrom, if_pos hstart]
  rcases findDelim_cases h text start with ⟨hzero, hnone⟩ | ⟨d, hnext⟩
  · rw [if_pos hzero, view_to_end]
    exact ⟨[], IsSplit.of_none hnone⟩
  · have hne := hnext.size_ne_zero h
    have hforward := hnext.forward
    obtain ⟨ds, hrest⟩ := splitFrom_isSplit h text _ (hnext.end_le h)
    rw [if_neg hne]
    exact ⟨d :: ds, IsSplit.of_next hforward hnext.word hnext.here hnext.first
      (hnext.size_eq ▸ hrest)⟩
termination_by text.length + 1 - start

theorem splitCharFrom_isSplit (c : UInt8) (text : Text) (start : Nat)
    (hstart : start ≤ text.length) :
    ∃ ds, IsSplit (char c).Word (text.drop start) (splitCharFrom c text start) ds := by
  have hfound := searchFrom_found ((char c).at text) text.length start
  have hbefore := fun i hi hlt =>
    mt ((char c).at_iff text i).mpr (hfound.before i hi hlt)
  rw [splitCharFrom, if_pos hstart]
  by_cases hlt : searchFrom ((char c).at text) text.length start < text.length
  · obtain ⟨d, hd, hword⟩ := ((char c).at_iff text _).mp (hfound.holds hlt)
    have hle := hfound.start_le hlt
    obtain ⟨ds, hrest⟩ := splitCharFrom_isSplit c text _ hlt
    exact ⟨d :: ds, IsSplit.of_next hle hd hword hbefore (by rwa [length_of_word hd])⟩
  · -- past the last delimiter the loop leaves with `start` beyond the end
    have hstop : searchFrom ((char c).at text) text.length start = text.length :=
      Nat.le_antisymm hfound.le_stop (Nat.le_of_not_lt hlt)
    rw [show searchFrom (fun i => text[i]? == some c) text.length start = text.length from hstop,
      view_to_end, splitCharFrom, if_neg (by omega)]
    rw [hstop] at hbefore
    exact ⟨[], IsSplit.of_none hbefore⟩
termination_by text.length + 1 - start

theorem stringSplitFrom_isSplit (c : UInt8) (text : Text) (last i : Nat) (hlast : last ≤ i)
    (hnone : ∀ j, last ≤ j → j < i → ¬ Occurs (char c).Word text j) :
    ∃ ds, IsSplit (char c).Word (text.drop last) (stringSplitFrom c text last i) ds := by
  rw [stringSplitFrom]
  split
  case isTrue hlt =>
    split
    case isTrue hc =>
      obtain ⟨ds, hrest⟩ := stringSplitFrom_isSplit c text (i + 1) (i + 1) (Nat.le_refl _)
        (fun j hj hlt => absurd (Nat.lt_of_le_of_lt hj hlt) (Nat.lt_irrefl _))
      exact ⟨[c] :: ds, IsSplit.of_next hlast rfl (singleton_prefix_drop.mpr hc) hnone hrest⟩
    case isFalse hc =>
      refine stringSplitFrom_isSplit c text last (i + 1) (Nat.le_succ_of_le hlast) ?_
      intro j hj hlt
      rcases Nat.lt_succ_iff_lt_or_eq.mp hlt with hlt | rfl
      · exact hnone j hj hlt
      · rintro ⟨_, rfl, hword⟩
        exact hc (singleton_prefix_drop.mp hword)
  case isFalse hge =>
    exact ⟨[], IsSplit.of_none fun j hj hlt => hnone j hj (by omega)⟩
termination_by text.length - i

theorem strSplit_isSplit (text : Text) : ∀ delim : Delimiter, delim.NonEmpty →
    ∃ ds, IsSplit delim.Word text (strSplit text delim) ds
  | .char c, _ => splitCharFrom_isSplit c text 0 (Nat.zero_le _)
  | .anyOf _, h => splitFrom_isSplit h text 0 (Nat.zero_le _)
  | .string _, h => splitFrom_isSplit h text 0 (Nat.zero_le _)

theorem eq_strSplit (h : delim.NonEmpty)
    {pieces delims : List Text} (hs : IsSplit delim.Word text pieces delims) :
    pieces = strSplit text delim := by
  obtain ⟨ds, hs'⟩ := strSplit_isSplit text delim h
  exact hs.unique (size_pos h) (fun _ hd => length_of_word hd) hs'

theorem eq_strSplit_char {pieces delims : List Text}
    (hs : IsSplit (char c).Word text pieces delims) :
    pieces = strSplit text (.char c) :=
  @eq_strSplit text (.char c) trivial pieces delims hs

/-! ### Empty tokens -/

theorem filter_view {start len : Nat} (h : start + len ≤ text.length) :
    [view text start len].filter (· ≠ []) = if 0 < len then [view text start len] else [] := by
  have hlen : (view text start len).length = len := by
    rw [view, length_take, length_drop]
    omega
  rcases Nat.eq_zero_or_pos len with rfl | hpos
  · simp [view]
  · have hne : view text start len ≠ [] := length_pos_iff.mp (by omega)
    rw [if_pos hpos]
    simp [hne]

/-- Skipping empty tokens filters them out of the tokens that `splitFrom` finds. -/
theorem splitSkipFrom_eq (h : delim.NonEmpty) (text : Text) (start : Nat)
    (hstart : start ≤ text.length) :
    splitSkipFrom delim text start = (splitFrom delim text start).filter (· ≠ []) := by
  rw [splitSkipFrom, splitFrom, if_pos hstart, if_pos hstart]
  rcases findDelim_cases h text start with ⟨hzero, -⟩ | ⟨d, hnext⟩
  · rw [if_pos hzero, if_pos hzero, filter_view (by omega)]
  · have hne := hnext.size_ne_zero h
    have hforward := hnext.forward
    have hend := hnext.end_le h
    rw [if_neg hne, if_neg hne, splitSkipFrom_eq h text _ hend, ← filter_view (by omega),
      ← filter_append, singleton_append]
termination_by text.length + 1 - start

/-- The tokens of `str_split` are those that the search for its delimiter finds. -/
theorem strSplit_eq_splitFrom (h : delim.NonEmpty) (text : Text) :
    strSplit text delim = splitFrom delim text 0 := by
  obtain ⟨ds, hs⟩ := splitFrom_isSplit h text 0 (Nat.zero_le _)
  exact (eq_strSplit h hs).symm

/-! ### One character -/

/-- The table of a single character, which is not the terminator. -/
theorem byAnyOf_singleton (hc : c ≠ 0) (x : UInt8) : byAnyOf [c] x = true ↔ x = c := by
  rw [byAnyOf, markAll, if_neg hc, markAll, Function.update_apply]
  split
  case isTrue heq => simp [heq]
  case isFalse hne => simp [hne]

/-- A list of characters that begins with the terminator is an empty set. -/
theorem ne_zero_of_anyOf_nonEmpty (h : (anyOf [c]).NonEmpty) : c ≠ 0 := by
  rintro rfl
  obtain ⟨x, hx⟩ := h
  exact absurd hx Bool.false_ne_true

theorem word_anyOf_singleton (hc : c ≠ 0) :
    (anyOf [c]).Word = (char c).Word := by
  funext d
  refine propext ⟨?_, fun hd => ⟨c, (byAnyOf_singleton hc c).mpr rfl, hd⟩⟩
  rintro ⟨x, hx, rfl⟩
  rw [(byAnyOf_singleton hc x).mp hx]
  rfl

theorem strSplit_anyOf_singleton (h : (anyOf [c]).NonEmpty) (text : Text) :
    strSplit text (.anyOf [c]) = strSplit text (.char c) := by
  obtain ⟨ds, hs⟩ := strSplit_isSplit text (.anyOf [c]) h
  rw [word_anyOf_singleton (ne_zero_of_anyOf_nonEmpty h)] at hs
  exact eq_strSplit_char hs

theorem strSplit_string_singleton (c : UInt8) (text : Text) :
    strSplit text (.string [c]) = strSplit text (.char c) := by
  obtain ⟨ds, hs⟩ := strSplit_isSplit text (.string [c]) (cons_ne_nil _ _)
  exact eq_strSplit_char hs

theorem stringSplit_eq (c : UInt8) (text : Text) :
    stringSplit text c = strSplit text (.char c) := by
  obtain ⟨ds, hs⟩ := stringSplitFrom_isSplit c text 0 0 (Nat.le_refl 0)
    (fun j _ hlt => absurd hlt (Nat.not_lt_zero j))
  exact eq_strSplit_char hs

/-! ### The specification of `str_split` -/

/-- **`str_split`** returns the split of the text at the delimiter, and no other list is one; its
pieces do not contain the delimiter, skipping empty tokens filters them, and the ways to name a
single character agree. -/
theorem strSplit_spec (text : Text) : (∀ delim : Delimiter, delim.NonEmpty →
      (∀ pieces, (∃ ds, IsSplit delim.Word text pieces ds) ↔ pieces = strSplit text delim) ∧
      (∀ piece ∈ strSplit text delim, ∀ d, delim.Word d → ¬ d <:+: piece) ∧
      strSplitSkipEmpty text delim = (strSplit text delim).filter (· ≠ [])) ∧
    ∀ c : UInt8, strSplit text (.string [c]) = strSplit text (.char c) ∧
      stringSplit text c = strSplit text (.char c) ∧
      ((anyOf [c]).NonEmpty → strSplit text (.anyOf [c]) = strSplit text (.char c)) := by
  refine ⟨fun delim h => ⟨fun pieces => ⟨?_, ?_⟩, ?_, ?_⟩, fun c =>
    ⟨strSplit_string_singleton c text, stringSplit_eq c text,
      fun h => strSplit_anyOf_singleton h text⟩⟩
  · rintro ⟨ds, hs⟩
    exact eq_strSplit h hs
  · rintro rfl
    exact strSplit_isSplit text delim h
  · intro piece hpiece d hd
    obtain ⟨ds, hs⟩ := strSplit_isSplit text delim h
    refine hs.not_infix (fun d hd hnil => ?_) hpiece hd
    have hpos := size_pos h
    rw [← length_of_word hd, hnil] at hpos
    exact absurd hpos (Nat.lt_irrefl 0)
  · rw [strSplit_eq_splitFrom h]
    exact splitSkipFrom_eq h text 0 (Nat.zero_le _)

/-- `"aaa"` split at `"aa"`: the leftmost match is taken, and the overlapping one is not. -/
theorem strSplit_overlapping : strSplit [97, 97, 97] (.string [97, 97]) = [[], [97]] := by
  have hlast : IsSplit (string [97, 97]).Word [97] [[97]] [] := by
    refine IsSplit.single fun i hi => ?_
    rintro ⟨_, rfl, hword⟩
    have hlen := hword.length_le
    rw [length_drop] at hlen
    simp only [length_cons, length_nil] at hlen
    omega
  have hword : (string [97, 97]).Word [97, 97] := rfl
  have hsplit : IsSplit (string [97, 97]).Word [97, 97, 97] [[], [97]] [[97, 97]] :=
    IsSplit.cons (p := []) hword (fun i hi => absurd hi (Nat.not_lt_zero i)) hlast
  have hspec := (strSplit_spec [97, 97, 97]).1 (.string [97, 97]) (cons_ne_nil _ _)
  exact ((hspec.1 [[], [97]]).mp ⟨_, hsplit⟩).symm

/-! ### Empty delimiters -/

/-- An empty set of characters is found nowhere. -/
theorem findAnyOf_nil (text : Text) (pos : Nat) : (findAnyOf (byAnyOf []) text pos).2 = 0 := by
  rw [findAnyOf_eq, firstAt]
  split
  next hlt =>
    have hfound := (searchFrom_found (fun i => text[i]?.any (byAnyOf [])) text.length pos).holds hlt
    obtain ⟨c, -, hc⟩ := (any_eq_true _ _).mp hfound
    cases hc
  next => rfl

/-- An empty string is found everywhere, with size 0. -/
theorem findString_nil (text : Text) (pos : Nat) : (findString [] text pos).2 = 0 := by
  unfold findString
  split
  · rfl
  · split <;> rfl

/-- A delimiter of size 0 ends the loop in its first round. -/
theorem splitFrom_of_size_zero (h : (findDelim delim text 0).2 = 0) :
    splitFrom delim text 0 = [text] := by
  rw [splitFrom, if_pos (Nat.zero_le _), if_pos h, view_to_end, drop_zero]

theorem singleton_eq_map_iff (text : Text) :
    [text] = text.map (fun c => [c]) ↔ text.length = 1 := by
  constructor
  · intro h
    have hlen := congrArg List.length h
    rw [length_map] at hlen
    exact hlen.symm
  · intro h
    obtain ⟨c, rfl⟩ := length_eq_one_iff.mp h
    rfl

/-- **Empty delimiters.** Neither kind of empty delimiter splits at all, so that the tokens are the
single bytes of the text exactly if it has one byte. -/
theorem empty_delimiter_iff (text : Text) :
    (strSplit text (.anyOf []) = text.map (fun c => [c]) ↔ text.length = 1) ∧
      (strSplit text (.string []) = text.map (fun c => [c]) ↔ text.length = 1) := by
  have hset : strSplit text (.anyOf []) = [text] := splitFrom_of_size_zero (findAnyOf_nil text 0)
  have hstring : strSplit text (.string []) = [text] :=
    splitFrom_of_size_zero (findString_nil text 0)
  rw [hset, hstring]
  exact ⟨singleton_eq_map_iff text, singleton_eq_map_iff text⟩

theorem empty_delimiter_keeps_text :
    strSplit [97, 98] (.anyOf []) = [[97, 98]] ∧ strSplit [97, 98] (.string []) = [[97, 98]] :=
  ⟨splitFrom_of_size_zero (findAnyOf_nil _ 0), splitFrom_of_size_zero (findString_nil _ 0)⟩

end CxxKit.StrSplit
