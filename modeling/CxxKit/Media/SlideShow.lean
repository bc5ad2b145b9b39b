import Mathlib.Data.Int.Basic

/-!
The squares of the slide show (`SlideShowVideoFrameGenerator::generate_new_frame`).

The length of a square is drawn up to a quarter of the width, the height has no part in it.
A position is a row and a column of its plane.  The size of the buffer (`I420DataSize`) and
the offsets of the rows are products of `int`s; one that does not fit is undefined, here
`none`.
-/

namespace CxxKit.SlideShow

def int32 (value : Int) : Option Int :=
  if -2147483648 ≤ value ∧ value ≤ 2147483647 then some value else none

/-- `I420DataSize`. -/
def i420DataSize (height strideY strideU strideV : Int) : Option Int := do
  let luma ← int32 (strideY * height)
  let strides ← int32 (strideU + strideV)
  let rows ← int32 (height + 1)
  let chroma ← int32 (strides * rows.tdiv 2)
  int32 (luma + chroma)

/-- `I420Buffer::create(width, height)`: the size of what it allocates. -/
def create (width height : Int) : Option Int := do
  let columns ← int32 (width + 1)
  i420DataSize height width (columns.tdiv 2) (columns.tdiv 2)

/-- `kSquareNum`, from `rand(0, 3)`. -/
def squareNum (magnitude : Nat) : Int := Int.ofNat (1 <<< (4 + magnitude * 2))

/-- The upper bound of the draw of `length`. -/
def maxLength (width : Int) : Int := if width > 4 then width.tdiv 4 else 1

def cappedLength (length squareNum i : Int) : Option Int :=
  (int32 (length * (squareNum - i))).map (·.tdiv squareNum)

/-- A call of `memset` in one row of a plane, which begins at `offset`. -/
structure Fill where
  row : Int
  offset : Int
  column : Int
  count : Int

def fill (stride row column count : Int) : Option Fill :=
  (int32 (row * stride)).map fun offset => ⟨row, offset, column, count⟩

def Inside (f : Option Fill) (rows columns : Int) : Prop :=
  ∃ g, f = some g ∧ 0 ≤ g.row ∧ g.row < rows ∧ 0 ≤ g.column ∧ 0 ≤ g.count ∧
    g.column + g.count ≤ columns

/-- The loop over the rows of the luma plane. -/
def luma (stride x y length : Int) : List (Option Fill) :=
  (List.range length.toNat).map fun k : Nat => fill stride (y + k) x length

/-- The loop over every other row, for either chroma plane. -/
def chroma (stride x y length : Int) : List (Option Fill) :=
  (List.range ((length + 1) / 2).toNat).map fun k : Nat =>
    fill stride ((y + 2 * k) / 2) (x / 2) (length / 2)

/-- The ranges of the draws are not empty, and whatever is drawn, a square of this length is
written inside the planes. -/
def Drawable (width height length : Int) : Prop :=
  0 ≤ width - length ∧ 0 ≤ height - length ∧
    ∀ x y, 0 ≤ x ∧ x ≤ width - length → 0 ≤ y ∧ y ≤ height - length →
      (∀ f ∈ luma width x y length, Inside f height width) ∧
        ∀ f ∈ chroma ((width + 1) / 2) x y length,
          Inside f ((height + 1) / 2) ((width + 1) / 2)

/-- Every square of every frame, in a buffer that can be allocated. -/
def SquaresInside (width height : Int) : Prop :=
  (create width height).isSome = true ∧ 1 ≤ maxLength width ∧
    ∀ magnitude ≤ 3, ∀ i, 0 ≤ i ∧ i < squareNum magnitude →
      ∀ length, 1 ≤ length ∧ length ≤ maxLength width →
        ∃ capped, cappedLength length (squareNum magnitude) i = some capped ∧
          Drawable width height capped

variable {w h n i l : Int}

/-! ### The buffer -/

theorem int32_eq_some_iff {v u : Int} :
    int32 v = some u ↔ u = v ∧ -2147483648 ≤ v ∧ v ≤ 2147483647 := by
  unfold int32
  split
  · rw [Option.some.injEq]
    omega
  · exact iff_of_false nofun (by omega)

/-- The bytes of the three planes. -/
def bytes (width height : Int) : Int :=
  width * height + ((width + 1) / 2 + (width + 1) / 2) * ((height + 1) / 2)

/-- The buffer is larger than each product in its size and each row in it. -/
theorem le_bytes (hw : 0 < w) (hh : 0 < h) : w + h - 1 ≤ w * h ∧
    0 < ((w + 1) / 2 + (w + 1) / 2) * ((h + 1) / 2) := by
  refine ⟨?_, Int.mul_pos (by omega) (by omega)⟩
  have hsides := Int.mul_nonneg (show 0 ≤ w - 1 by omega) (show 0 ≤ h - 1 by omega)
  rw [Int.sub_mul, Int.mul_sub] at hsides
  omega

/-- The size of the buffer is computed in `int`; if the sum fits, so does all that is in it. -/
theorem create_isSome_iff (hw : 0 < w) (hh : 0 < h) :
    (create w h).isSome = true ↔ bytes w h ≤ 2147483647 := by
  have hcolumns : (w + 1).tdiv 2 = (w + 1) / 2 := Int.tdiv_eq_ediv_of_nonneg (by omega)
  have hrows : (h + 1).tdiv 2 = (h + 1) / 2 := Int.tdiv_eq_ediv_of_nonneg (by omega)
  obtain ⟨hluma, hchroma⟩ := le_bytes hw hh
  simp only [create, i420DataSize, Option.isSome_iff_exists, Option.bind_eq_bind,
    Option.bind_eq_some_iff, int32_eq_some_iff]
  constructor
  · rintro ⟨size, _, ⟨rfl, -⟩, _, ⟨rfl, -⟩, _, ⟨rfl, -⟩, _, ⟨rfl, -⟩, _, ⟨rfl, -⟩, -, -, hfits⟩
    rwa [hcolumns, hrows] at hfits
  · intro hfits
    unfold bytes at hfits
    refine ⟨_, _, ⟨rfl, by omega, by omega⟩, _, ⟨rfl, by omega, by omega⟩, _, ⟨rfl, ?_⟩, _,
      ⟨rfl, by omega, by omega⟩, _, ⟨rfl, ?_⟩, rfl, ?_⟩ <;> rw [hcolumns]
    · omega
    all_goals
      rw [hrows]
      omega

theorem inside_of_fits {row stride rows column count columns : Int} (hrow : 0 ≤ row ∧ row < rows)
    (hstride : 0 ≤ stride) (hfits : rows * stride ≤ 2147483647)
    (hcolumn : 0 ≤ column ∧ 0 ≤ count ∧ column + count ≤ columns) :
    Inside (fill stride row column count) rows columns := by
  have hlow : 0 ≤ row * stride := Int.mul_nonneg hrow.1 hstride
  have hhigh : row * stride ≤ rows * stride := Int.mul_le_mul_of_nonneg_right (by omega) hstride
  refine ⟨⟨row, row * stride, column, count⟩, ?_, hrow.1, hrow.2, hcolumn⟩
  rw [fill, int32_eq_some_iff.mpr ⟨rfl, by omega, by omega⟩]
  rfl

theorem drawable (hw : 0 < w) (hh : 0 < h) (hfits : bytes w h ≤ 2147483647) (hl : 0 ≤ l)
    (hlw : l ≤ w) (hlh : l ≤ h) : Drawable w h l := by
  obtain ⟨hluma, hchroma⟩ := le_bytes hw hh
  unfold bytes at hfits
  refine ⟨by omega, by omega, fun x y hx hy => ⟨fun f hf => ?_, fun f hf => ?_⟩⟩
  all_goals
    obtain ⟨k, hk, rfl⟩ := List.mem_map.mp hf
    have hrow := List.mem_range.mp hk
    refine inside_of_fits (by omega) (by omega) ?_ (by omega)
  · rw [Int.mul_comm]
    omega
  · rw [Int.mul_comm]
    rw [Int.add_mul] at hfits hchroma
    omega

theorem squareNum_bounds {magnitude : Nat} (h : magnitude ≤ 3) :
    0 < squareNum magnitude ∧ squareNum magnitude ≤ 1024 := by
  match magnitude, h with
  | 0, _ | 1, _ | 2, _ | 3, _ => decide

theorem cappedLength_le (hn : 0 < n ∧ n ≤ 1024) (hi : 0 ≤ i ∧ i < n) (hl : 1 ≤ l)
    (hfits : l < 2097152) : ∃ c, cappedLength l n i = some c ∧ 0 ≤ c ∧ c ≤ l := by
  have hnonneg : 0 ≤ l * (n - i) := Int.mul_nonneg (by omega) (by omega)
  have hle : l * (n - i) ≤ l * n := Int.mul_le_mul_of_nonneg_left (by omega) (by omega)
  have hmax : l * n ≤ 2097151 * 1024 := Int.mul_le_mul (by omega) hn.2 (by omega) (by omega)
  refine ⟨l * (n - i) / n, ?_, Int.ediv_nonneg hnonneg (by omega), ?_⟩
  · rw [cappedLength, int32, if_pos (by omega), Option.map_some,
      Int.tdiv_eq_ediv_of_nonneg hnonneg]
  · exact Int.le_trans (Int.ediv_le_ediv hn.1 hle)
      (Int.le_of_eq (Int.mul_ediv_cancel l (Int.ne_of_gt hn.1)))

/-- **Squares of the slide show.** They lie inside the frame exactly if a quarter of the width is
at most the height and the bytes of the frame can be counted in `int`.  The length of a square
depends on the width alone, so a frame that is too flat has no room for it; and the products in a
larger frame overflow before the first square is drawn. -/
theorem squares_inside_iff (width height : Int) (hw : 0 < width) (hh : 0 < height) :
    SquaresInside width height ↔ width / 4 ≤ height ∧ bytes width height ≤ 2147483647 := by
  have hquarter : width.tdiv 4 = width / 4 := Int.tdiv_eq_ediv_of_nonneg (by omega)
  have hmax : 1 ≤ maxLength width ∧ width / 4 ≤ maxLength width ∧ maxLength width ≤ width ∧
      (maxLength width = width / 4 ∨ maxLength width = 1) := by
    unfold maxLength
    split <;> omega
  rw [SquaresInside, create_isSome_iff hw hh]
  constructor
  · rintro ⟨hfits, -, h⟩
    obtain ⟨c, hc, -, hheight, -⟩ :=
      h 3 (by decide) 0 (by decide) (maxLength width) ⟨hmax.1, Int.le_refl _⟩
    obtain ⟨_, hproduct, rfl⟩ := Option.map_eq_some_iff.mp hc
    obtain ⟨rfl, -⟩ := int32_eq_some_iff.mp hproduct
    have hlength := Int.mul_tdiv_cancel (maxLength width) (b := 1024) (by decide)
    change 0 ≤ height - (maxLength width * 1024).tdiv 1024 at hheight
    exact ⟨by omega, hfits⟩
  · rintro ⟨hheight, hfits⟩
    -- a square that fits into the frame is short enough to be multiplied by their number
    have hshort : width / 4 < 2097152 := by
      have hsquare : width / 4 * (width / 4) ≤ width * height :=
        Int.mul_le_mul (by omega) hheight (by omega) (by omega)
      have hluma : width * height ≤ bytes width height := by
        have := (le_bytes hw hh).2
        unfold bytes
        omega
      by_contra hlong
      have := Int.mul_le_mul (show 2097152 ≤ width / 4 by omega)
        (show 2097152 ≤ width / 4 by omega) (by decide) (by omega)
      omega
    refine ⟨hfits, hmax.1, fun magnitude hmagnitude i hi length hlength => ?_⟩
    obtain ⟨c, hc, hnonneg, hle⟩ :=
      cappedLength_le (squareNum_bounds hmagnitude) hi hlength.1 (by omega)
    exact ⟨c, hc, drawable hw hh hfits hnonneg (by omega) (by omega)⟩

theorem squares_inside_vga : SquaresInside 640 480 :=
  (squares_inside_iff 640 480 (by decide) (by decide)).mpr (by decide)

/-- In a frame of 16 by 1 a square of length 4 has no row to start in. -/
theorem flat_frame_not_inside :
    cappedLength 4 16 0 = some 4 ∧ ¬ 0 ≤ (1 : Int) - 4 ∧ ¬ SquaresInside 16 1 := by
  refine ⟨by decide, by decide, fun h => ?_⟩
  obtain ⟨c, hc, -, hheight, -⟩ := h.2.2 0 (by decide) 0 (by decide) 4 (by decide)
  cases hc
  exact absurd hheight (by decide)

end CxxKit.SlideShow
