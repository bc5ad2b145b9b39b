import CxxKit.Lib.Reentrant
import Mathlib.Data.List.Basic

/-!
Writes through the asio stream backend (`detail/stream_backend_asio.cpp`).

`submit_next_write` hands the head of the queue to `async_write_some`, which may
take any non-empty part of the bytes; the completion handler does not look at how
many were taken.  Whether an operation is in flight is read off the size of its
storage `mInFlight`, which a write of no bytes leaves at zero.
-/

namespace CxxKit.AsioStreamBackend

open List Option Reentrant Transition

/-- `PendingWrite`; the number of the `write` call stands for its callback. -/
structure PendingWrite where
  mOnWritten : Nat
  mData : List UInt8
  deriving DecidableEq, Repr

/-- An operation started by `async_write_some`, and how many bytes the socket took, once it did. -/
structure Operation where
  write : PendingWrite
  taken : Option Nat
  deriving DecidableEq, Repr

structure State where
  mPendingWrites : List PendingWrite := []
  mInFlight : List UInt8 := []
  mCloseRequested : Bool := false
  mNativeStatus : Int := 0
  /-- The endpoint object exists. -/
  socket : Bool := true
  operations : List Operation := []
  /-- Calls of `write`. -/
  writes : List PendingWrite := []
  /-- Invocations of their callbacks. -/
  written : List (Nat × Bool) := []
  /-- Bytes the socket has taken. -/
  accepted : List UInt8 := []
  /-- An operation has completed with an error. -/
  failed : Bool := false
  deriving DecidableEq, Repr

inductive Rest where
  /-- The completion handler of a successful operation after the callback. -/
  | afterWritten
  /-- The loop of `begin_close` and what follows it. -/
  | discardWrites (discards : List PendingWrite)
  deriving DecidableEq, Repr

abbrev Step := Outcome State Rest

namespace State

def invokeWritten (n : Nat) (ok : Bool) (s : State) : Step :=
  ({ s with written := s.written ++ [(n, ok)] }, [.callback])

def submitNextWrite (s : State) : State :=
  if 0 < s.mInFlight.length then s
  else match s.mPendingWrites with
  | [] => s
  | pending :: rest =>
    { s with
      mPendingWrites := rest, mInFlight := pending.mData
      operations := s.operations ++ [⟨pending, none⟩] }

/-- `write` of a connected socket over this backend.  A socket that is closing reports the write
as discarded before the backend sees it. -/
def write (data : List UInt8) (s : State) : Step :=
  let pending : PendingWrite := ⟨s.writes.length, data⟩
  let s := { s with writes := s.writes ++ [pending] }
  if s.mCloseRequested then s.invokeWritten pending.mOnWritten false
  else (submitNextWrite { s with mPendingWrites := s.mPendingWrites ++ [pending] }, [])

def beginClose (s : State) : Step :=
  if s.mCloseRequested then (s, [])
  else ({ s with mCloseRequested := true, mPendingWrites := [] },
    [.rest (.discardWrites s.mPendingWrites)])

def discardWrites (discards : List PendingWrite) (s : State) : Step :=
  match discards with
  | [] => ({ s with socket := false }, [])
  | pending :: rest => (s.invokeWritten pending.mOnWritten false).andThen (.discardWrites rest)

def afterWritten (s : State) : State :=
  if s.mCloseRequested then s else s.submitNextWrite

/-- The socket performs an operation and takes the first `count` bytes: at least one, unless
there are none. -/
def transfer (index count : Nat) (s : State) : Option State :=
  match s.operations[index]? with
  | none => none
  | some op =>
    if op.taken = none ∧ count ≤ op.write.mData.length ∧ (0 < count ∨ op.write.mData = []) then
      some { s with
        operations := s.operations.set index { op with taken := some count }
        accepted := s.accepted ++ op.write.mData.take count }
    else none

/-- The completion handler: with `ec = 0` after the socket has performed the operation, with an
error instead of it. -/
def complete (index : Nat) (ec : Int) (s : State) : Option Step :=
  match s.operations[index]? with
  | none => none
  | some op =>
    let t := { s with
      operations := s.operations.eraseIdx index
      mNativeStatus := -ec
      mInFlight := [] }
    if ec = 0 ∧ op.taken ≠ none then
      some ((t.invokeWritten op.write.mOnWritten true).andThen .afterWritten)
    else if ec ≠ 0 ∧ op.taken = none then
      some ({ t with failed := true }.invokeWritten op.write.mOnWritten false)
    else none

end State

inductive Call where
  | write (data : List UInt8)
  | close
  deriving DecidableEq, Repr

inductive Event where
  | transfer (index count : Nat)
  | complete (index : Nat) (ec : Int)
  deriving DecidableEq, Repr

section

variable (s : State)

def call : Call → Option Step
  | .write data => some (s.write data)
  | .close => some s.beginClose

def resume : Rest → Step
  | .afterWritten => (s.afterWritten, [])
  | .discardWrites discards => s.discardWrites discards

def event : Event → Option Step
  | .transfer index count => (s.transfer index count).map fun t => (t, [])
  | .complete index ec => s.complete index ec

def program : Program State Rest Call Unit Event where
  init := {}
  call := call
  resume s rest _ := some (resume s rest)
  event := event

/-! ### The stream of bytes -/

def bytes (ws : List PendingWrite) : List UInt8 := ws.flatMap (·.mData)

/-- The bytes taken by the socket are a beginning of what was written, in the order of the
calls; a callback reports success only when the bytes up to the end of its write are taken;
and one operation is in flight at most. -/
structure Streamed : Prop where
  accepted : s.accepted <+: bytes s.writes
  reported : ∀ n, (n, true) ∈ s.written → bytes (s.writes.take (n + 1)) <+: s.accepted
  single : s.operations.length ≤ 1

/-- No operation without bytes is in flight. -/
def State.Marked : Prop := ∀ op ∈ s.operations, op.write.mData ≠ []

instance (s : State) : Decidable s.Marked :=
  inferInstanceAs (Decidable (∀ op ∈ s.operations, op.write.mData ≠ []))

/-- No empty operation is in flight where the next write may be submitted: in a call of `write` and
where a completion handler goes on after its callback. No write is called after an operation has
failed, and the socket takes all bytes of an operation. -/
def Whole (c : Config State Rest) : Label Call Unit Event → Prop
  | .call (.write _) => c.store.mCloseRequested = false → c.store.Marked ∧ c.store.failed = false
  | .resume _ => ∀ todo, c.todo = .rest .afterWritten :: todo → c.store.Marked
  | .event (.transfer index count) => ∀ op, c.store.operations[index]? = some op →
      count = op.write.mData.length
  | _ => True

/-- The bytes an operation has moved. -/
def Operation.moved (op : Operation) : List UInt8 :=
  match op.taken with
  | none => []
  | some count => op.write.mData.take count

/-- The writes are those whose bytes are taken, the one in flight, those queued and those
discarded by closing, in this order. -/
def State.Chained : Prop :=
  ∃ done discarded, s.writes = done ++ s.operations.map (·.write) ++ s.mPendingWrites ++ discarded
    ∧ (s.mCloseRequested = false → discarded = [])
    ∧ s.accepted = bytes done ++ s.operations.flatMap (·.moved)

structure Intact (todo : List (Frame Rest)) : Prop where
  numbered : ∀ (i : Nat) (w : PendingWrite), s.writes[i]? = some w → w.mOnWritten = i
  reported : ∀ n, (n, true) ∈ s.written →
    n < s.writes.length ∧ bytes (s.writes.take (n + 1)) <+: s.accepted
  single : s.operations.length ≤ 1
  held : ∀ op ∈ s.operations, s.mInFlight = op.write.mData
  whole : ∀ op ∈ s.operations, ∀ count, op.taken = some count → count = op.write.mData.length
  chained : s.failed = false → s.Chained
  stopped : s.failed = true → s.operations = [] ∧ s.accepted <+: bytes s.writes
    ∧ Frame.rest Rest.afterWritten ∉ todo

end

variable {s : State} {todo : List (Frame Rest)}

@[simp] theorem bytes_append (xs ys : List PendingWrite) :
    bytes (xs ++ ys) = bytes xs ++ bytes ys :=
  flatMap_append

@[simp] theorem bytes_singleton (w : PendingWrite) : bytes [w] = w.mData := by
  simp [bytes]

section

variable (h : Intact s todo) {op : Operation}
include h

theorem Intact.streamed : Streamed s where
  accepted := by
    cases hfailed : s.failed with
    | true => exact (h.stopped hfailed).2.1
    | false =>
      obtain ⟨done, discarded, hwrites, -, haccepted⟩ := h.chained hfailed
      rw [hwrites, haccepted, bytes_append, bytes_append, bytes_append, append_assoc, append_assoc]
      apply (prefix_append_right_inj _).mpr
      -- what an operation has moved is a beginning of its bytes
      match hops : s.operations, h.single with
      | [], _ => exact nil_prefix
      | [op], _ =>
        simp only [flatMap_cons, flatMap_nil, append_nil, map_cons, map_nil, bytes_singleton]
        refine List.IsPrefix.trans ?_ (prefix_append _ _)
        unfold Operation.moved
        split
        · exact nil_prefix
        · exact take_prefix _ _
  reported n hn := (h.reported n hn).2
  single := h.single

omit h in
theorem Intact.pop {k : Frame Rest} (h : Intact s (k :: todo)) : Intact s todo := by
  refine { h with stopped := fun hfailed => ?_ }
  obtain ⟨hops, haccepted, hnot⟩ := h.stopped hfailed
  exact ⟨hops, haccepted, fun hmem => hnot (mem_cons_of_mem _ hmem)⟩

theorem Intact.submitNextWrite (hmarked : s.Marked) (hlive : s.failed = false) :
    Intact s.submitNextWrite todo := by
  unfold State.submitNextWrite
  split
  · exact h
  next hempty =>
    have hstorage : s.mInFlight = [] := by simpa using hempty
    have hops : s.operations = [] := by
      by_contra hne
      obtain ⟨op, hop⟩ := exists_mem_of_ne_nil _ hne
      exact hmarked op hop ((h.held op hop).symm.trans hstorage)
    split
    · exact h
    · next pending rest hpending =>
        obtain ⟨done, discarded, hwrites, hdiscarded, haccepted⟩ := h.chained hlive
        refine { h with
          single := by simp [hops]
          held := by simp [hops]
          whole := by simp [hops]
          chained := fun _ => ⟨done, discarded, ?_, hdiscarded, ?_⟩
          stopped := fun hfailed => nomatch hlive.symm.trans hfailed }
        · simpa [hops, hpending] using hwrites
        · simpa [hops, Operation.moved] using haccepted

/-- A new write is numbered, and what was reported stays reported. -/
theorem Intact.numbered_append (data : List UInt8) (i : Nat) (w : PendingWrite)
    (hw : (s.writes ++ [⟨s.writes.length, data⟩])[i]? = some w) : w.mOnWritten = i := by
  rcases Nat.lt_or_ge i s.writes.length with hlt | hge
  · rw [getElem?_append_left hlt] at hw
    exact h.numbered i w hw
  · rw [getElem?_append_right hge, getElem?_singleton] at hw
    split at hw
    · cases hw
      dsimp only
      omega
    · cases hw

theorem Intact.reported_append (w : PendingWrite) {n : Nat} (hn : (n, true) ∈ s.written) :
    n < (s.writes ++ [w]).length
      ∧ bytes ((s.writes ++ [w]).take (n + 1)) <+: s.accepted := by
  obtain ⟨hlt, hstart⟩ := h.reported n hn
  refine ⟨by rw [length_append]; omega, ?_⟩
  rwa [take_append_of_le_length (by omega)]

theorem Intact.write (data : List UInt8)
    (hwhole : s.mCloseRequested = false → s.Marked ∧ s.failed = false) :
    (s.write data).Leaves Intact todo := by
  unfold State.write
  dsimp only
  split
  next hclosed =>
    refine { h with
      numbered := h.numbered_append data
      reported := fun n hn => ?_
      chained := fun hlive => ?_
      stopped := fun hfailed => ?_ }
    · have hold : (n, true) ∈ s.written := by simpa [State.invokeWritten] using hn
      exact h.reported_append _ hold
    · obtain ⟨done, discarded, hwrites, -, haccepted⟩ := h.chained hlive
      refine ⟨done, discarded ++ [⟨s.writes.length, data⟩], ?_, fun hopen => ?_, haccepted⟩
      · simp [State.invokeWritten, hwrites]
      · rw [hclosed] at hopen
        cases hopen
    · obtain ⟨hops, haccepted, hnot⟩ := h.stopped hfailed
      refine ⟨hops, ?_, by simpa [State.invokeWritten] using hnot⟩
      change s.accepted <+: bytes (s.writes ++ [_])
      rw [bytes_append]
      exact haccepted.trans (prefix_append _ _)
  next hopen =>
    have hopen : s.mCloseRequested = false := by simpa using hopen
    obtain ⟨hmarked, hlive⟩ := hwhole hopen
    apply Intact.submitNextWrite
    · obtain ⟨done, discarded, hwrites, hdiscarded, haccepted⟩ := h.chained hlive
      exact { h with
        numbered := h.numbered_append data
        reported := fun n hn => h.reported_append _ hn
        chained := fun _ =>
          ⟨done, [], by simp [hwrites, hdiscarded hopen], fun _ => rfl, haccepted⟩
        stopped := fun hfailed => nomatch hlive.symm.trans hfailed }
    · exact hmarked
    · exact hlive

omit h in
theorem Intact.afterWritten (h : Intact s (.rest .afterWritten :: todo)) (hmarked : s.Marked) :
    Intact s.afterWritten todo := by
  unfold State.afterWritten
  split
  · exact h.pop
  · have hlive : s.failed = false := by
      by_contra hfailed
      exact (h.stopped (by simpa using hfailed)).2.2 mem_cons_self
    exact h.pop.submitNextWrite hmarked hlive

theorem Intact.beginClose : s.beginClose.Leaves Intact todo := by
  unfold State.beginClose
  split
  · exact h
  · refine { h with chained := fun hlive => ?_, stopped := fun hfailed => ?_ }
    · obtain ⟨done, discarded, hwrites, -, haccepted⟩ := h.chained hlive
      refine ⟨done, s.mPendingWrites ++ discarded, ?_, nofun, haccepted⟩
      simpa using hwrites
    · obtain ⟨hops, haccepted, hnot⟩ := h.stopped hfailed
      exact ⟨hops, haccepted, by simpa using hnot⟩

/-- A callback that reports a discarded or failed write. -/
theorem Intact.invokeFalse (n : Nat) (fs : List (Frame Rest))
    (hfs : Frame.rest Rest.afterWritten ∉ fs) :
    Intact (s.invokeWritten n false).1 (fs ++ todo) := by
  refine { h with reported := fun m hm => ?_, stopped := fun hfailed => ?_ }
  · exact h.reported m (by simpa [State.invokeWritten] using hm)
  · obtain ⟨hops, haccepted, hnot⟩ := h.stopped hfailed
    exact ⟨hops, haccepted, by simp [hfs, hnot]⟩

theorem Intact.discardWrites (discards : List PendingWrite) :
    (s.discardWrites discards).Leaves Intact todo := by
  cases discards with
  | nil => exact { h with }
  | cons pending rest =>
    exact h.invokeFalse pending.mOnWritten [.callback, .rest (.discardWrites rest)] (by simp)

theorem Intact.operation {index : Nat} (hop : s.operations[index]? = some op) :
    index = 0 ∧ s.operations = [op] := by
  match hops : s.operations, h.single with
  | [], _ => simp [hops] at hop
  | [only], _ =>
    rw [hops, getElem?_singleton] at hop
    split at hop
    · cases hop
      exact ⟨‹_›, rfl⟩
    · cases hop

theorem Intact.live (hops : s.operations = [op]) : s.failed = false := by
  by_contra hfailed
  have hnone := (h.stopped (by simpa using hfailed)).1
  rw [hops] at hnone
  cases hnone

end

theorem Intact.transfer {index count : Nat} {t : State} (h : Intact s [])
    (hwhole : ∀ op, s.operations[index]? = some op → count = op.write.mData.length)
    (htransfer : s.transfer index count = some t) : Intact t [] := by
  unfold State.transfer at htransfer
  split at htransfer
  · cases htransfer
  next op hop =>
    split at htransfer
    case isFalse => cases htransfer
    rename_i henabled
    cases htransfer
    obtain ⟨rfl, hops⟩ := h.operation hop
    obtain rfl := hwhole op hop
    have hlive := h.live hops
    obtain ⟨done, discarded, hwrites, hdiscarded, haccepted⟩ := h.chained hlive
    refine { h with
      reported := fun n hn =>
        ⟨(h.reported n hn).1, (h.reported n hn).2.trans (prefix_append _ _)⟩
      single := by simp [hops]
      held := ?_
      whole := ?_
      chained := fun _ => ⟨done, discarded, ?_, hdiscarded, ?_⟩
      stopped := fun hfailed => nomatch hlive.symm.trans hfailed }
    · simpa [hops] using h.held
    · simp [hops]
    · simpa [hops] using hwrites
    · simp [hops, haccepted, Operation.moved, henabled.1]

/-- An operation whose bytes are all taken completes: the bytes up to the end of its write are
what the socket has taken. -/
theorem Intact.complete {index : Nat} {ec : Int} {r : Step} (h : Intact s [])
    (hcomplete : s.complete index ec = some r) : Intact r.1 r.2 := by
  unfold State.complete at hcomplete
  split at hcomplete
  · cases hcomplete
  next op hop =>
    obtain ⟨rfl, hops⟩ := h.operation hop
    have hlive := h.live hops
    obtain ⟨done, discarded, hwrites, hdiscarded, haccepted⟩ := h.chained hlive
    have hwrites' : s.writes = done ++ [op.write] ++ (s.mPendingWrites ++ discarded) := by
      simpa [hops] using hwrites
    split_ifs at hcomplete with hsuccess herror
    · cases hcomplete
      obtain ⟨count, hcount⟩ := ne_none_iff_exists'.mp hsuccess.2
      obtain rfl := h.whole op (by simp [hops]) count hcount
      have htaken : s.accepted = bytes (done ++ [op.write]) := by
        simpa [hops, Operation.moved, hcount] using haccepted
      have hnumber : op.write.mOnWritten = done.length := by
        apply h.numbered
        simp [hwrites']
      refine { h with
        reported := fun n hn => ?_
        single := by simp [hops, State.invokeWritten]
        held := by simp [hops, State.invokeWritten]
        whole := by simp [hops, State.invokeWritten]
        chained := fun _ => ⟨done ++ [op.write], discarded, ?_, hdiscarded, ?_⟩
        stopped := fun hfailed => nomatch hlive.symm.trans hfailed }
      · rcases mem_append.mp hn with hold | hnew
        · exact h.reported n hold
        · have hn : n = done.length := by simpa [hnumber] using hnew
          subst hn
          refine ⟨by simp [State.invokeWritten, hwrites'], ?_⟩
          have htake : s.writes.take (done.length + 1) = done ++ [op.write] := by
            rw [hwrites']
            exact take_left' (by simp)
          have hstart : bytes (s.writes.take (done.length + 1)) = s.accepted := by
            rw [htake, htaken]
          exact hstart ▸ prefix_rfl
      · simpa [hops, State.invokeWritten] using hwrites'
      · simpa [hops, State.invokeWritten] using htaken
    · cases hcomplete
      have haccepted' : s.accepted = bytes done := by
        simpa [hops, Operation.moved, herror.2] using haccepted
      refine { h with
        reported := fun n hn => h.reported n (by simpa [State.invokeWritten] using hn)
        single := by simp [hops, State.invokeWritten]
        held := by simp [hops, State.invokeWritten]
        whole := by simp [hops, State.invokeWritten]
        chained := nofun
        stopped := fun _ =>
          ⟨by simp [hops, State.invokeWritten], ?_, by simp [State.invokeWritten]⟩ }
      change s.accepted <+: bytes s.writes
      rw [hwrites', haccepted', bytes_append, bytes_append, append_assoc]
      exact prefix_append _ _

/-! ### Every run -/

theorem Intact.step {c d : Config State Rest} {a : Label Call Unit Event}
    (h : Intact c.store c.todo) (hwhole : Whole c a) (hstep : program.step c a = some d) :
    Intact d.store d.todo := by
  cases Program.step_effect hstep with
  | call s todo a r _ hcall =>
    cases a with
    | write data =>
      cases hcall
      exact h.write data hwhole
    | close =>
      cases hcall
      exact h.beginClose
  | ret s todo => exact h.pop
  | resume s rest todo answer r hresume =>
    cases hresume
    cases rest with
    | afterWritten => exact h.afterWritten (hwhole todo rfl)
    | discardWrites discards => exact h.pop.discardWrites discards
  | event s e r hevent =>
    cases e with
    | transfer index count =>
      obtain ⟨t, ht, rfl⟩ := map_eq_some_iff.mp hevent
      exact h.transfer hwhole ht
    | complete index ec => exact h.complete hevent

/-- **Writes are streamed**, in every run of writes, transfers, completions and closes whose steps
meet the condition: then one operation is in flight at most, and its completion stands for all of
its bytes. -/
theorem writes_streamed (run : List (Label Call Unit Event))
    (hwhole : program.machine.Meets Whole program.machine.init run) :
    program.machine.Always (fun c => Streamed c.store) program.machine.init run := by
  have hinit : Intact {} [] := by
    constructor <;> simp [State.Chained, bytes]
  exact (Machine.always_of_meets (I := fun c : Config State Rest => Intact c.store c.todo)
    (fun _ _ _ h hc hstep => h.step hc hstep) hinit hwhole).mono fun _ h => h.streamed

/-- Two writes, the second queued behind the first. -/
theorem writes_streamed_two_writes :
    program.machine.Always (fun c => Streamed c.store) program.machine.init
      [.call (.write [1, 2]), .call (.write [3]), .event (.transfer 0 2),
        .event (.complete 0 0), .ret, .resume ()] := by
  apply writes_streamed
  rintro c₁ ⟨⟩
  refine ⟨fun _ => ⟨nofun, rfl⟩, ?_⟩
  rintro c₂ ⟨⟩
  refine ⟨fun _ => ⟨by decide, rfl⟩, ?_⟩
  rintro c₃ ⟨⟩
  refine ⟨?_, ?_⟩
  · rintro op ⟨⟩
    rfl
  rintro c₄ ⟨⟩
  refine ⟨trivial, ?_⟩
  rintro c₅ ⟨⟩
  refine ⟨trivial, ?_⟩
  rintro c₆ ⟨⟩
  exact ⟨fun _ _ => nofun, trivial⟩

/-- A write of two bytes of which the socket takes one: the callback reports success. -/
theorem short_write_reported : ∃ c : Config State Rest, program.machine.run program.machine.init
      [.call (.write [1, 2]), .event (.transfer 0 1), .event (.complete 0 0)] = some c
      ∧ ¬ Streamed c.store := by
  refine ⟨_, rfl, fun h => ?_⟩
  have hreported : [1, 2] <+: [(1 : UInt8)] := h.reported 0 (mem_singleton.mpr rfl)
  exact absurd hreported (by decide)

end CxxKit.AsioStreamBackend
