import CxxKit.Tools.SharedContents

/-!
Whole runs of `SharedBuffer` calls.

The handles show at every moment what independent lists would, as long as no call is
given bytes that it destroys: `append_data` that has to move a block no other handle
holds reads the bytes after it has freed them, and `set_data` in place copies them onto
themselves.  Outside `Op.Separate` such a call has no defined result
(`Sound.setData_own`, `Sound.appendData_own`), so the condition is exact.
-/

namespace CxxKit

namespace SharedBuffer

namespace State

variable {ι : Type} {s : State ι} {i : ι} [Fintype ι] [DecidableEq ι] {offset length : Nat}

/-! ### Calls that destroy what they copy -/

omit [Fintype ι] [DecidableEq ι] in
theorem appendInPlace_error (i : ι) (heap : Counted.Heap ι Buffer) {p : Pointer} (fill : Fill)
    (hlength : ¬ p.length = 0) (h : ∀ b, heap.value? i = some b →
      p.Overlaps (heap.ptr i) b.mSize ∨ load heap p = .error .dangling) :
    ∃ e, appendInPlace i p fill heap = .error e := by
  unfold appendInPlace
  split
  · exact ⟨_, rfl⟩
  next b hb =>
    rw [if_neg hlength]
    split
    · exact ⟨_, rfl⟩
    · rcases h b hb with hover | hload
      · rw [if_pos hover]
        exact ⟨_, rfl⟩
      · rw [hload]
        split <;> exact ⟨_, rfl⟩

omit [Fintype ι] [DecidableEq ι] in
theorem exists_ptr (hone : s.heap.hasOneRef i = true) : ∃ a, s.heap.ptr i = some a := by
  cases hi : s.heap.ptr i with
  | none => simp [Counted.Heap.hasOneRef, hi] at hone
  | some a => exact ⟨a, rfl⟩

theorem Sound.setData_own (hs : s.Sound) (fill : Fill) (hone : s.heap.hasOneRef i = true)
    (hover : (s.slice i).mOffset + offset < length) :
    ∃ e, s.setData i (.view i offset length) fill = .error e := by
  obtain ⟨a, hi⟩ := exists_ptr hone
  obtain ⟨b, _, hb⟩ := hs.exact.value?_eq_some hi
  have hself := congrFun (hs.exact.value?_modify Buffer.clear hone) i
  rw [Function.update_self, hb] at hself
  have hfails := appendInPlace_error i (s.heap.modify i Buffer.clear)
    (p := .block a ((s.slice i).mOffset + offset) length) fill
    (by show ¬ length = 0; omega) (fun b' hb' => by
      cases hself.symm.trans hb'
      have hzero : b.clear.mSize = 0 := rfl
      rw [Counted.Exact.ptr_modify, hi]
      exact .inl ⟨rfl, by omega, by omega⟩)
  obtain ⟨e, he⟩ := hfails
  simp only [State.setData, pointer, hi, hb, hone, he]
  exact ⟨e, rfl⟩

theorem Sound.appendData_own (hs : s.Sound) (fill : Fill) (hone : s.heap.hasOneRef i = true)
    (hfull : s.capacity i < (s.slice i).mSize + length) :
    ∃ e, s.appendData i (.view i offset length) fill = .error e := by
  obtain ⟨a, hi⟩ := exists_ptr hone
  obtain ⟨b, _, hb⟩ := hs.exact.value?_eq_some hi
  have hsize := hs.mSize_le_capacity hb
  simp only [State.appendData, pointer, hi, hb, Pointer.length]
  rcases unshare_cases hb (max (s.capacity i) ((s.slice i).mSize + length)) fill with
    ⟨_, hroom, _⟩ | ⟨_, heq⟩
  · omega
  · -- the block is replaced, and its only reference was this handle's
    generalize s.unshareAndEnsureCapacity i _ fill = s' at heq ⊢
    generalize Buffer.ofBytes (s.shows i) _ fill = fresh at heq
    have hnew : s'.heap.ptr i = some s.heap.next := by
      rw [heq]
      exact Function.update_self ..
    have hgone : s'.heap.valueAt a = none := by
      rw [heq]
      exact hs.exact.valueAt_adopt_eq_none fresh hi hone
    have hne : a ≠ s.heap.next := fun h => hs.exact.ptr_ne_next i (h ▸ hi)
    obtain ⟨e, he⟩ := appendInPlace_error i
      (s'.heap.modify i (·.setSize ((s'.slice i).mOffset + (s'.slice i).mSize) fill))
      (p := .block a ((s.slice i).mOffset + offset) length) fill
      (by show ¬ length = 0; omega) (fun b' _ => by
        refine .inr ?_
        simp only [load, Counted.Exact.valueAt_modify _ hnew, if_neg hne, hgone])
    rw [he]
    exact ⟨e, rfl⟩

end State

/-! ### Runs -/

section Runs

variable {ι : Type} [Fintype ι] [DecidableEq ι] {s t : State ι}

theorem perform_refines (hs : s.Sound) (fill : Fill) (op : Op ι) (hrange : op.InRange s)
    (hsep : op.Separate s) :
    ∃ t, perform fill s op = .ok t ∧ t.Sound ∧ ListStep s.shows op t.shows := by
  cases op with
  | construct i size capacity =>
    obtain ⟨exposed, hlen, h⟩ := hs.construct i size capacity fill
    exact ⟨_, rfl, h.sound, exposed, hlen, h.shows⟩
  | constructFrom i data capacity =>
    obtain ⟨t, hok, h⟩ := hs.constructFrom i capacity fill hrange
    exact ⟨t, hok, h.sound, h.shows⟩
  | copy i j => exact ⟨_, rfl, (hs.copy i j).sound, (hs.copy i j).shows⟩
  | move i j => exact ⟨_, rfl, hs.move i j⟩
  | setData i data =>
    obtain ⟨t, hok, h⟩ := hs.setData i fill hrange hsep
    exact ⟨t, hok, h.sound, h.shows⟩
  | appendData i data =>
    obtain ⟨t, hok, h⟩ := hs.appendData i fill hrange hsep
    exact ⟨t, hok, h.sound, h.shows⟩
  | setSize i size =>
    obtain ⟨exposed, hlen, h⟩ := hs.setSize i size fill
    exact ⟨_, rfl, h.sound, exposed, hlen, h.shows⟩
  | ensureCapacity i newCapacity => exact ⟨_, rfl, hs.ensureCapacity i newCapacity fill⟩
  | clear i => exact ⟨_, rfl, (hs.clear i fill).sound, (hs.clear i fill).shows⟩
  | slice i j offset length =>
    have h := hs.sliceOf i j hrange
    exact ⟨_, rfl, h.sound, h.shows⟩
  | mutableData i => exact ⟨_, rfl, hs.mutableData i fill⟩
  | write i index value =>
    have h := hs.write i value fill hrange
    exact ⟨_, rfl, h.sound, h.shows⟩
  | swap i j => exact ⟨_, rfl, hs.swap i j⟩

/-- A call that is served copies nothing that it destroys. -/
theorem separate_of_perform (hs : s.Sound) {fill : Fill} {op : Op ι}
    (hok : perform fill s op = .ok t) : op.Separate s := by
  by_contra hsep
  have hfails : ∃ e, perform fill s op = .error e := by
    cases op with
    | setData i data =>
      cases data with
      | bytes data => exact absurd trivial hsep
      | view j offset length =>
        simp only [Op.Separate, Classical.not_imp, Nat.not_le] at hsep
        obtain ⟨rfl, hone, hover⟩ := hsep
        exact hs.setData_own fill hone hover
    | appendData i data =>
      cases data with
      | bytes data => exact absurd trivial hsep
      | view j offset length =>
        simp only [Op.Separate, Classical.not_imp, Nat.not_le] at hsep
        obtain ⟨rfl, hone, hfull⟩ := hsep
        exact hs.appendData_own fill hone hfull
    | _ => exact absurd trivial hsep
  obtain ⟨e, he⟩ := hfails
  rw [hok] at he
  cases he

omit [Fintype ι] in
theorem handles_step {call : Op ι × Fill} {shown : ι → List UInt8}
    (h : handles.step s call = .ok (t, shown)) :
    call.1.InRange s ∧ perform call.2 s call.1 = .ok t ∧ shown = t.shows := by
  simp only [handles] at h
  split at h
  next hrange =>
    cases hok : perform call.2 s call.1 with
    | error e =>
      rw [hok] at h
      cases h
    | ok t' =>
      rw [hok] at h
      cases h
      exact ⟨hrange, rfl, rfl⟩
  next => cases h

/-- **Exact counts.** Every call finds the references of every block counted exactly and every
slice within its block. -/
theorem handles_counted (calls : List (Op ι × Fill)) :
    handles.Guarded (fun s _ => s.Sound) (State.init : State ι) calls := by
  refine Transition.Service.guarded_of_step (fun s call t shown hs hstep => ?_) State.sound_init
  obtain ⟨hin, hok, -⟩ := handles_step hstep
  obtain ⟨t', hok', hsound, -⟩ := perform_refines hs call.2 call.1 hin (separate_of_perform hs hok)
  cases hok.symm.trans hok'
  exact hsound

/-- A call on independent lists, which answers with what they then are. -/
def ListCall (l : ι → List UInt8) (call : Op ι × Fill) (shown l' : ι → List UInt8) : Prop :=
  shown = l' ∧ ListStep l call.1 l'

/-- **Independence of handles.** A sequence of calls with arguments in range is served to its
end, every handle showing after every call what an independent list would, exactly when
no call copies bytes that it destroys. -/
theorem handles_independent (calls : List (Op ι × Fill))
    (hrange : handles.Guarded (fun s call => call.1.InRange s) .init calls) :
    (∃ t seen, handles.run .init calls = .ok (t, seen) ∧
        Transition.SpecRun ListCall (fun _ => []) calls seen t.shows ∧
        ∀ i, t.size i = (t.shows i).length) ↔
      handles.Guarded (fun s call => call.1.Separate s) .init calls := by
  constructor
  · rintro ⟨t, seen, hrun, _, _⟩
    refine Transition.Service.guarded_of_run ?_ State.sound_init hrun
    intro s call t shown hs hstep
    obtain ⟨hin, hok, rfl⟩ := handles_step hstep
    have hsep := separate_of_perform hs hok
    obtain ⟨t', hok', hsound, _⟩ := perform_refines hs call.2 call.1 hin hsep
    cases hok.symm.trans hok'
    exact ⟨hsep, hsound⟩
  · intro hsep
    have hstep (s : State ι) l call
        (hR : s.Sound ∧ l = s.shows) (hC : call.1.InRange s ∧ call.1.Separate s) :
        ∃ t shown l', handles.step s call = .ok (t, shown) ∧ ListCall l call shown l' ∧
          t.Sound ∧ l' = t.shows := by
      obtain ⟨hs, rfl⟩ := hR
      obtain ⟨t, hok, hsound, hlist⟩ := perform_refines hs call.2 call.1 hC.1 hC.2
      refine ⟨t, t.shows, t.shows, ?_, ⟨rfl, hlist⟩, hsound, rfl⟩
      simp only [handles, if_pos hC.1, hok]
      rfl
    obtain ⟨t, seen, l, hrun, hspec, hsound, rfl⟩ := Transition.Service.run_refines
      hstep ⟨State.sound_init, rfl⟩
      (hrange.and hsep)
    exact ⟨t, seen, hrun, hspec, fun i => (hsound.length_shows i).symm⟩

end Runs

/-- Two handles of one block: a write through the first leaves the second as it was. -/
theorem handles_independent_write : ∃ t seen, handles.run (State.init : State Bool)
        [(.constructFrom false (.bytes [1, 2]) 2, fun _ => 0), (.copy true false, fun _ => 0),
          (.write false 0 7, fun _ => 0)] = .ok (t, seen) ∧
      Transition.SpecRun ListCall (fun _ => [])
        [(.constructFrom false (.bytes [1, 2]) 2, fun _ => 0), (.copy true false, fun _ => 0),
          (.write false 0 7, fun _ => 0)] seen t.shows ∧
      ∀ i, t.size i = (t.shows i).length := by
  refine (handles_independent _ ?_).mpr ?_
  · refine ⟨trivial, ?_⟩
    rintro _ _ ⟨⟩
    refine ⟨trivial, ?_⟩
    rintro _ _ ⟨⟩
    refine ⟨by decide, ?_⟩
    rintro _ _ ⟨⟩
    exact trivial
  · refine ⟨trivial, ?_⟩
    rintro _ _ ⟨⟩
    refine ⟨trivial, ?_⟩
    rintro _ _ ⟨⟩
    refine ⟨trivial, ?_⟩
    rintro _ _ ⟨⟩
    exact trivial

/-- A handle that appends its own bytes to a full block frees them before it copies them. -/
theorem own_bytes_freed : handles.Guarded (fun s call => call.1.InRange s) (State.init : State Unit)
        [(.constructFrom () (.bytes [1, 2]) 2, fun _ => 0),
          (.appendData () (.view () 0 2), fun _ => 0)] ∧
      handles.run (State.init : State Unit)
        [(.constructFrom () (.bytes [1, 2]) 2, fun _ => 0),
          (.appendData () (.view () 0 2), fun _ => 0)] = .error .dangling := by
  refine ⟨⟨trivial, ?_⟩, rfl⟩
  rintro _ _ ⟨⟩
  refine ⟨by decide, ?_⟩
  rintro _ _ ⟨⟩

end SharedBuffer

end CxxKit
