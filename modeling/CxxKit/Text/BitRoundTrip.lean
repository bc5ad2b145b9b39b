import CxxKit.Text.BitCodes

/-!
Writing a sequence of items and reading it back.

Every item has a code, the list of its bits.  `writeAll_wrote` and `readAll_spec` are
inductions over the sequence, with one case per kind of item in `write_writes` and
`read_spec`; `reads_back_iff` says exactly when a sequence that was written is read
back.
-/

namespace CxxKit.BitBuffer

open BitBufferReader BitBufferWriter BitList Option Vector

/-! ### Items -/

/-- The arguments of a write. -/
inductive Item where
  | bits (val : Nat) (count : Nat)
  | uInt8 (val : UInt8)
  | uInt16 (val : UInt16)
  | uInt32 (val : UInt32)
  | exponentialGolomb (val : UInt32)
  | signedExponentialGolomb (val : Int32)
  | leb128 (val : UInt64)
  | string (data : List UInt8)
deriving DecidableEq, Repr

/-- The arguments of a read. -/
inductive Call where
  | bits (count : Nat)
  | uInt8
  | uInt16
  | uInt32
  | exponentialGolomb
  | signedExponentialGolomb
  | leb128
  | string (numBytes : Nat)
deriving DecidableEq, Repr

/-- The result of a read. -/
inductive Value where
  | number (val : Int)
  | text (data : List UInt8)
deriving DecidableEq, Repr

namespace Item

/-- What `write_bits` is called with: a value of `count` bits. -/
def WellFormed : Item → Prop
  | bits val count => 1 ≤ count ∧ count ≤ 64 ∧ val < 2 ^ count
  | _ => True

/-- The matching read. -/
def call : Item → Call
  | bits _ count => .bits count
  | uInt8 _ => .uInt8
  | uInt16 _ => .uInt16
  | uInt32 _ => .uInt32
  | exponentialGolomb _ => .exponentialGolomb
  | signedExponentialGolomb _ => .signedExponentialGolomb
  | leb128 _ => .leb128
  | string data => .string data.length

def value : Item → Value
  | bits val _ => .number val
  | uInt8 val => .number val.toNat
  | uInt16 val => .number val.toNat
  | uInt32 val => .number val.toNat
  | exponentialGolomb val => .number val.toNat
  | signedExponentialGolomb val => .number val.toInt
  | leb128 val => .number val.toNat
  | string data => .text data

/-- The bits an item takes in the buffer. -/
def code : Item → List Bool
  | bits val count => toBits count val
  | uInt8 val => toBits 8 val.toNat
  | uInt16 val => toBits 16 val.toNat
  | uInt32 val => toBits 32 val.toNat
  | exponentialGolomb val => golombBits val.toNat
  | signedExponentialGolomb val => golombBits (signedCode val.toInt)
  | leb128 val => bytesBits (leb128Bytes val.toNat)
  | string data => bytesBits data

/-- The two values without an exponential Golomb code are not among those written. -/
def Codable : Item → Prop
  | bits val count => (bits val count).WellFormed
  | exponentialGolomb val => val.toNat < 2 ^ 32 - 1
  | signedExponentialGolomb val => val.toInt ≠ -2 ^ 31
  | _ => True

end Item

/-! ### Sequences -/

namespace BitBufferWriter

variable {n : Nat}

def write (w : BitBufferWriter n) : Item → Option (BitBufferWriter n × Bool)
  | .bits val count => w.writeBits val count
  | .uInt8 val => w.writeUInt8 val
  | .uInt16 val => w.writeUInt16 val
  | .uInt32 val => w.writeUInt32 val
  | .exponentialGolomb val => w.writeExponentialGolomb val
  | .signedExponentialGolomb val => w.writeSignedExponentialGolomb val
  | .leb128 val => w.writeLeb128 val
  | .string data => w.writeString data

/-- The writes in order, with what each returned. -/
def writeAll : List Item → BitBufferWriter n → Option (BitBufferWriter n × List Bool)
  | [], w => some (w, [])
  | item :: items, w => do
      let (w, ok) ← w.write item
      let (w, oks) ← writeAll items w
      some (w, ok :: oks)

theorem write_writes (w : BitBufferWriter n) {item : Item} (hitem : item.WellFormed) :
    Writes (w.write item) w item.Codable item.code := by
  cases item with
  | bits val count =>
    obtain ⟨hpos, hle, hval⟩ := hitem
    exact (writeBits_writes w val hpos hle).mono fun _ => ⟨hpos, hle, hval⟩
  | uInt8 val => exact writeUInt8_writes w val
  | uInt16 val | uInt32 val => exact writeBits_writes w val.toNat (by decide) (by decide)
  | exponentialGolomb val => exact writeExponentialGolomb_writes w val
  | signedExponentialGolomb val => exact writeSignedExponentialGolomb_writes w val
  | leb128 val => exact writeLeb128_writes w val
  | string data => exact (writeStringLoop_writes w data true).mono fun _ => trivial

theorem writeAll_wrote {items : List Item} (hitems : ∀ item ∈ items, item.WellFormed)
    (w : BitBufferWriter n) :
    ∃ w' oks, writeAll items w = some (w', oks) ∧ ((∀ ok ∈ oks, ok = true) →
      (∀ item ∈ items, item.Codable) ∧ Wrote w (items.flatMap Item.code) w') := by
  induction items generalizing w with
  | nil => exact ⟨w, [], rfl, fun _ => ⟨nofun, .refl w⟩⟩
  | cons item items ih =>
    rw [List.forall_mem_cons] at hitems
    obtain ⟨u, ok, hrun, hspec⟩ := write_writes w hitems.1
    obtain ⟨w', oks, hruns, hspecs⟩ := ih hitems.2 u
    refine ⟨w', ok :: oks, ?_, ?_⟩
    · simp only [writeAll, hrun, hruns, bind_eq_bind, bind_some]
    · intro hoks
      rw [List.forall_mem_cons] at hoks
      obtain ⟨hcodable, hwrote⟩ := hspec hoks.1
      obtain ⟨hcodables, hwrotes⟩ := hspecs hoks.2
      exact ⟨List.forall_mem_cons.mpr ⟨hcodable, hcodables⟩, hwrote.trans hwrotes⟩

end BitBufferWriter

namespace BitBufferReader

/-- A read; `read<uint8_t>()` and its kin narrow what `read_bits` returns. -/
def read (r : BitBufferReader) : Call → Option (Value × BitBufferReader)
  | .bits count => (r.readBits count).map fun (val, r) => (.number val, r)
  | .uInt8 => (r.readBits 8).map fun (val, r) => (.number (val % 2 ^ 8 : Nat), r)
  | .uInt16 => (r.readBits 16).map fun (val, r) => (.number (val % 2 ^ 16 : Nat), r)
  | .uInt32 => (r.readBits 32).map fun (val, r) => (.number (val % 2 ^ 32 : Nat), r)
  | .exponentialGolomb => r.readExponentialGolomb.map fun (val, r) => (.number val, r)
  | .signedExponentialGolomb => r.readSignedExponentialGolomb.map fun (val, r) => (.number val, r)
  | .leb128 => r.readLeb128.map fun (val, r) => (.number val, r)
  | .string numBytes => (r.readString numBytes).map fun (data, r) => (.text data, r)

/-- The reads in order: what each returned, and the reader after it. -/
def readAll : List Call → BitBufferReader → Option (List (Value × BitBufferReader))
  | [], _ => some []
  | call :: calls, r => do
      let (val, r) ← r.read call
      let rest ← readAll calls r
      some ((val, r) :: rest)

/-- The reader after the last read. -/
def afterAll (r : BitBufferReader) (results : List (Value × BitBufferReader)) : BitBufferReader :=
  results.foldl (fun _ result => result.2) r

variable {r : BitBufferReader} {ys : List Bool}

/-- Reading a whole number through `read_bits` and narrowing it. -/
theorem read_number {count val : Nat} (hle : count ≤ 64)
    (hval : val < 2 ^ count) (h : r.Unread (toBits count val ++ ys)) :
    ∃ r', ((r.readBits count).map fun (val, r) => (Value.number (val % 2 ^ count : Nat), r)) =
        some (.number val, r') ∧ r'.Unread ys := by
  obtain ⟨r', hrun, hrest⟩ := readBits_toBits hle h
  exact ⟨r', by simp only [hrun, map_some, Nat.mod_eq_of_lt hval], hrest⟩

theorem read_spec {item : Item} (hitem : item.Codable) (h : r.Unread (item.code ++ ys)) :
    ∃ r', r.read item.call = some (item.value, r') ∧ r'.Unread ys := by
  cases item with
  | bits val count =>
    obtain ⟨-, hle, hval⟩ := hitem
    obtain ⟨r', hrun, hrest⟩ := readBits_toBits hle h
    rw [Nat.mod_eq_of_lt hval] at hrun
    exact ⟨r', by simp only [Item.call, read, hrun, map_some, Item.value], hrest⟩
  | uInt8 val | uInt16 val | uInt32 val => exact read_number (by decide) val.toNat_lt h
  | exponentialGolomb val =>
    obtain ⟨r', hrun, hrest⟩ := readExponentialGolomb_spec hitem h
    exact ⟨r', by simp only [Item.call, read, hrun, map_some, Item.value], hrest⟩
  | signedExponentialGolomb val =>
    obtain ⟨r', hrun, hrest⟩ := readSignedExponentialGolomb_spec hitem h
    exact ⟨r', by simp only [Item.call, read, hrun, map_some, Item.value], hrest⟩
  | leb128 val =>
    obtain ⟨r', hrun, hrest⟩ := readLeb128_spec h
    exact ⟨r', by simp only [Item.call, read, hrun, map_some, Item.value], hrest⟩
  | string data =>
    obtain ⟨r', hrun, hrest⟩ := readString_spec h
    exact ⟨r', by simp only [Item.call, read, hrun, map_some, Item.value], hrest⟩

theorem readAll_spec {items : List Item}
    (hitems : ∀ item ∈ items, item.Codable) (h : r.Unread (items.flatMap Item.code ++ ys)) :
    ∃ results, readAll (items.map Item.call) r = some results ∧
      results.map Prod.fst = items.map Item.value ∧ (∀ result ∈ results, result.2.Ok) ∧
      (r.afterAll results).Unread ys := by
  induction items generalizing r with
  | nil => exact ⟨[], rfl, rfl, nofun, h⟩
  | cons item items ih =>
    rw [List.forall_mem_cons] at hitems
    rw [List.flatMap_cons, List.append_assoc] at h
    obtain ⟨u, hrun, hrest⟩ := read_spec hitems.1 h
    obtain ⟨results, hruns, hvalues, hoks, hdone⟩ := ih hitems.2 hrest
    refine ⟨(item.value, u) :: results, ?_, ?_, ?_, hdone⟩
    · simp only [List.map_cons, readAll, hrun, hruns, bind_eq_bind, bind_some]
    · rw [List.map_cons, hvalues, List.map_cons]
    · exact List.forall_mem_cons.mpr ⟨hrest.ok, hoks⟩

theorem afterAll_ok {results : List (Value × BitBufferReader)} (hr : r.Ok)
    (hoks : ∀ result ∈ results, result.2.Ok) : (r.afterAll results).Ok := by
  induction results generalizing r with
  | nil => exact hr
  | cons result results ih =>
    rw [List.forall_mem_cons] at hoks
    exact ih hoks.1 hoks.2

end BitBufferReader

/-- Reading the buffer from bit `start` on gives back the items: a reader that has
skipped `start` bits is Ok, the matching reads return the values and leave the reader Ok
each time, and together they take `advanced` bits. -/
def ReadsBack (bytes : List UInt8) (start : Nat) (items : List Item) (advanced : Nat) : Prop :=
  let r := (new bytes).consumeBits start
  r.Ok ∧ ∃ results, readAll (items.map Item.call) r = some results ∧
    results.map Prod.fst = items.map Item.value ∧ (∀ result ∈ results, result.2.Ok) ∧
    r.mRemainingBits - (r.afterAll results).mRemainingBits = advanced

section RoundTrip

open BitBufferReader BitBufferWriter

variable {n : Nat} {w w' : BitBufferWriter n} {xs : List Bool} {items : List Item}

theorem seek_position {u : BitBufferWriter n} {byteOffset bitOffset : Nat}
    (h : u.seek byteOffset bitOffset = (w, true)) : w.position = 8 * byteOffset + bitOffset := by
  unfold seek at h
  split at h
  · cases h
  · cases h
    rfl

/-- What a reader over the written buffer has in front of it after skipping to the
position the writes started from. -/
theorem consumeBits_of_wrote (h : Wrote w xs w')
    (hfits : (w.position + xs.length : Nat) ≤ castInt (n * 8)) :
    ∃ ys, ((new w'.mWritableBytes.toList).consumeBits w.position).Unread
      (xs ++ ys) := by
  have hlength : w'.mWritableBytes.toList.length = n := Vector.length_toList
  have hnew := @new_spec w'.mWritableBytes.toList (by rw [hlength]; omega)
  rw [hlength] at hnew
  obtain ⟨k, hk⟩ := Int.eq_ofNat_of_zero_le (show 0 ≤ castInt (n * 8) by omega)
  rw [hk, Int.toNat_natCast] at hnew
  have hpos : (w.bits.take w.position).length = w.position := by
    have := h.fits
    rw [List.length_take, length_bits]
    omega
  have hbits : (bytesBits w'.mWritableBytes.toList).take k = w.bits.take w.position ++
      (xs ++ (w.bits.drop (w.position + xs.length)).take (k - (w.position + xs.length))) := by
    have hstart : (w.bits.take w.position ++ xs).length ≤ k := by
      rw [List.length_append]
      omega
    rw [← bits, h.bits, overwrite, List.take_append, List.take_of_length_le hstart,
      List.length_append, hpos, List.append_assoc]
  rw [hbits] at hnew
  have hskip := consumeBits_spec hnew
  rw [hpos] at hskip
  exact ⟨_, hskip⟩

theorem readsBack_of_wrote (hitems : ∀ item ∈ items, item.Codable)
    (h : Wrote w (items.flatMap Item.code) w')
    (hfits : (w.position + (items.flatMap Item.code).length : Nat) ≤ castInt (n * 8)) :
    ReadsBack w'.mWritableBytes.toList w.position items (w'.position - w.position) := by
  obtain ⟨ys, hskip⟩ := consumeBits_of_wrote h hfits
  obtain ⟨results, hruns, hvalues, hoks, hdone⟩ := readAll_spec hitems hskip
  refine ⟨hskip.ok, results, hruns, hvalues, hoks, ?_⟩
  rw [hskip.1, hdone.1, h.position, List.length_append]
  omega

/-- A reader that stays Ok never counts more bits than the constructor gave it. -/
theorem le_of_readsBack {bytes : List UInt8} {start advanced : Nat}
    (h : ReadsBack bytes start items advanced) :
    (start + advanced : Nat) ≤ castInt (bytes.length * 8) := by
  obtain ⟨hok, results, -, -, hoks, hadvanced⟩ := h
  have hafter := afterAll_ok hok hoks
  have hnot : ¬ (new bytes).mRemainingBits < start :=
    fun hlt => consumeBits_not_ok hlt hok
  have hleft : ((new bytes).consumeBits start).mRemainingBits =
      (new bytes).mRemainingBits - start := by
    rw [BitBufferReader.consumeBits, if_neg hnot]
  rw [Ok] at hafter
  rw [← new_mRemainingBits]
  omega

/-- **Reading back what was written.**  From every position, every sequence of writes
stays inside the buffer.  When all of them return true, the matching reads give the
items back exactly if the bit count of the buffer, converted to `int`, reaches the end
of what was written. -/
theorem reads_back_iff (bytes : Vector UInt8 n) (byteOffset bitOffset : Nat) (items : List Item)
    (hitems : ∀ item ∈ items, item.WellFormed)
    (hseek : (new bytes).seek byteOffset bitOffset = (w, true)) :
    ∃ w' oks, writeAll items w = some (w', oks) ∧ ((∀ ok ∈ oks, ok = true) →
      (ReadsBack w'.mWritableBytes.toList (8 * byteOffset + bitOffset) items
          (w'.position - w.position) ↔
        (8 * byteOffset + bitOffset + (items.flatMap Item.code).length : Nat) ≤
          castInt (n * 8))) := by
  have hposition : w.position = 8 * byteOffset + bitOffset := seek_position hseek
  obtain ⟨w', oks, hrun, hspec⟩ := writeAll_wrote hitems w
  refine ⟨w', oks, hrun, fun hoks => ?_⟩
  obtain ⟨hcodable, hwrote⟩ := hspec hoks
  rw [← hposition]
  constructor
  · intro hback
    have hle := le_of_readsBack hback
    rw [Vector.length_toList, hwrote.position, Nat.add_sub_cancel_left] at hle
    exact hle
  · exact readsBack_of_wrote hcodable hwrote

/-- One item of every variable-length kind. -/
def mixedItems : List Item :=
  [.bits 5 3, .exponentialGolomb 4, .signedExponentialGolomb (-3), .leb128 300, .string [104, 105]]

theorem reads_back_mixed : ∃ w' : BitBufferWriter 8,
      writeAll mixedItems ((new (replicate 8 0)).seek 1 3).1 =
        some (w', [true, true, true, true, true]) ∧
      ReadsBack w'.mWritableBytes.toList 11 mixedItems (w'.position - 11) := by
  have hitems : ∀ item ∈ mixedItems, item.WellFormed := by simp [mixedItems, Item.WellFormed]
  have hseek : (new (replicate 8 (0 : UInt8))).seek 1 3 =
      (((new (replicate 8 0)).seek 1 3).1, true) := rfl
  obtain ⟨w', oks, hrun, hiff⟩ := reads_back_iff (replicate 8 0) 1 3 mixedItems hitems hseek
  have hoks : (writeAll mixedItems ((new (replicate 8 0)).seek 1 3).1).map
      Prod.snd = some [true, true, true, true, true] := by decide +kernel
  have hlength : (mixedItems.flatMap Item.code).length = 45 := by
    have hleb : (leb128Bytes 300).length = 2 := by
      rw [leb128Bytes, leb128Bytes]
      rfl
    simp only [mixedItems, List.flatMap_cons, List.flatMap_nil, Item.code, golombBits,
      List.length_append, length_toBits, length_bytesBits, List.length_nil, List.length_cons]
    rw [show (300 : UInt64).toNat = 300 from rfl, hleb]
    decide
  rw [hrun, map_some, some.injEq] at hoks
  subst hoks
  refine ⟨w', hrun, (hiff (by simp)).mpr ?_⟩
  rw [hlength]
  decide

/-- `checked_cast` does not check: over a buffer of `2 ^ 28` bytes the reader's bit count
wraps to `-2 ^ 31`, and it is not Ok before the first read. -/
theorem large_buffer_not_read_back : ∃ w' : BitBufferWriter (2 ^ 28),
      writeAll [.uInt8 7] (new (replicate (2 ^ 28) 0)) =
        some (w', [true]) ∧
      ¬ ReadsBack w'.mWritableBytes.toList 0 [.uInt8 7] 8 := by
  obtain ⟨w', hrun, -⟩ := @writeBits_spec _ 8 (7 : UInt8).toNat
    (new (replicate (2 ^ 28) (0 : UInt8)))
    (by decide) (by decide) (by decide)
  refine ⟨w', ?_, ?_⟩
  · rw [writeAll, write, writeUInt8, hrun]
    rfl
  · intro hback
    have hle := le_of_readsBack hback
    rw [Vector.length_toList] at hle
    exact absurd hle (by decide)

end RoundTrip

end CxxKit.BitBuffer
