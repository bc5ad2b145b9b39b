import CxxKit.Kernel.Runtime
import CxxKit.Lib.Tally
import Mathlib.Logic.Relation

/-!
The ledger: what is left of the kernel when only the events are looked at.

A ledger says where every event is: in a queue, in flight, or gone, with a history of
what happened to it.  `Move` lists the things that can happen in one queue; every step of
the kernel is a sequence of moves, a `transfer` from one queue to another, or the end of
a queue with all that is in it, `lose` (`Kernel.Bookkeeping`).  All three keep every event
at one stage (`Conserved`), and only the last one loses events (`Lossless`).  Moves keep
the queues ordered (`Ordered`), and `transfer_ordered_iff` says when a transfer does.
-/

namespace CxxKit.Kernel

open EventQueue Function Happening List Nat Tally

def Happening.event : Happening → Nat
  | handed e => e
  | deleted e => e
  | lost e => e

structure Ledger where
  queue : Nat → List EventEntry
  inFlight : List EventEntry
  history : List Happening
  issued : Nat

namespace Ledger

def deletions (entries : List EventEntry) : List Happening :=
  entries.map fun entry => .deleted entry.mEvent.id

/-- One thing that happens to events. -/
inductive Move : Ledger → Ledger → Prop where
  /-- a new event is enqueued -/
  | enqueue (L : Ledger) (l : Nat) (entry : EventEntry) :
      entry.mEvent.id = L.issued →
      Move L { L with
        queue := update L.queue l (insertEntry entry (L.queue l))
        issued := L.issued + 1 }
  /-- a new event is deleted at once -/
  | compress (L : Ledger) :
      Move L { L with history := L.history ++ [.deleted L.issued], issued := L.issued + 1 }
  /-- some entries of a queue are deleted -/
  | discard (L : Ledger) (l : Nat) (gone : EventEntry → Bool) :
      Move L { L with
        queue := update L.queue l ((L.queue l).filter fun entry => !gone entry)
        history := L.history ++ deletions ((L.queue l).filter gone) }
  /-- the head of a queue is sent, and handed to its receiver unless it is intercepted -/
  | send (L : Ledger) (l : Nat) (entry : EventEntry) (queue : List EventEntry)
      (intercepted : Bool) :
      L.queue l = entry :: queue →
      Move L { L with
        queue := update L.queue l queue
        inFlight := entry :: L.inFlight
        history := L.history ++ if intercepted then [] else [.handed entry.mEvent.id] }
  /-- an event that was sent is deleted -/
  | finish (L : Ledger) (entry : EventEntry) (inFlight : List EventEntry) :
      L.inFlight.Perm (entry :: inFlight) →
      Move L { L with inFlight, history := L.history ++ deletions [entry] }

/-- Some entries of a queue go to the end of another one. -/
def transfer (L : Ledger) (l l' : Nat) (taken : EventEntry → Bool) : Ledger :=
  { L with
    queue := update
      (update L.queue l ((L.queue l).filter fun entry => !taken entry))
      l' (L.queue l' ++ (L.queue l).filter taken) }

/-- A queue goes, and what is in it is not deleted. -/
def lose (L : Ledger) (l : Nat) : Ledger :=
  { L with
    queue := update L.queue l []
    history := L.history ++ (L.queue l).map fun entry => .lost entry.mEvent.id }

theorem transfer_queue (L : Ledger) (l l' : Nat) (taken : EventEntry → Bool) :
    (L.transfer l l' taken).queue = update
      (update L.queue l ((L.queue l).filter fun entry => !taken entry))
      l' (L.queue l' ++ (L.queue l).filter taken) := rfl

/-! ### Every event is accounted for -/

/-- The events of a queue. -/
def ids (queue : List EventEntry) : List Nat := queue.map fun entry => entry.mEvent.id

/-- What happened to an event so far. -/
def past (history : List Happening) (e : Nat) : List Happening :=
  history.filter fun h => h.event = e

/-- How often an event is in the queues of the loops below `n`. -/
def queued (queue : Nat → List EventEntry) (n : Nat) (e : Nat) : Nat :=
  tally (fun l => ids (queue l)) n e

/-- Where an event can be, and what can have happened to it there: how often it is
queued, how often in flight, and its past. -/
inductive Stage (e issued : Nat) : Nat → Nat → List Happening → Prop where
  | unissued : issued ≤ e → Stage e issued 0 0 []
  | waiting : e < issued → Stage e issued 1 0 []
  | sent : e < issued → Stage e issued 0 1 []
  | handed : e < issued → Stage e issued 0 1 [.handed e]
  | discarded : e < issued → Stage e issued 0 0 [.deleted e]
  | delivered : e < issued → Stage e issued 0 0 [.handed e, .deleted e]
  | lost : e < issued → Stage e issued 0 0 [.lost e]

/-- Every event is at one stage. -/
def Conserved (L : Ledger) : Prop :=
  ∃ n : Nat, (∀ l : Nat, n ≤ l → L.queue l = []) ∧
    ∀ e, Stage e L.issued (queued L.queue n e) ((ids L.inFlight).count e) (past L.history e)

section Stages

variable {e issued queued inFlight : Nat} {past : List Happening}

theorem Stage.issue_other (h : Stage e issued queued inFlight past) (hne : e ≠ issued) :
    Stage e (issued + 1) queued inFlight past := by
  cases h with
  | unissued hle => exact .unissued (Nat.lt_of_le_of_ne hle (Ne.symm hne))
  | waiting hlt => exact .waiting (lt_succ_of_lt hlt)
  | sent hlt => exact .sent (lt_succ_of_lt hlt)
  | handed hlt => exact .handed (lt_succ_of_lt hlt)
  | discarded hlt => exact .discarded (lt_succ_of_lt hlt)
  | delivered hlt => exact .delivered (lt_succ_of_lt hlt)
  | lost hlt => exact .lost (lt_succ_of_lt hlt)

theorem Stage.of_issued (h : Stage e e queued inFlight past) :
    queued = 0 ∧ inFlight = 0 ∧ past = [] := by
  cases h with
  | unissued => exact ⟨rfl, rfl, rfl⟩
  | waiting hlt | sent hlt | handed hlt | discarded hlt => exact absurd hlt (Nat.lt_irrefl e)
  | delivered hlt | lost hlt => exact absurd hlt (Nat.lt_irrefl e)

theorem Stage.lt_of_queued (h : Stage e issued queued inFlight past) (hq : queued ≠ 0) :
    e < issued := by
  cases h with
  | waiting hlt => exact hlt
  | _ => exact absurd rfl hq

theorem Stage.lt_of_past (h : Stage e issued queued inFlight past) (hpast : past ≠ []) :
    e < issued := by
  cases h with
  | unissued => exact absurd rfl hpast
  | waiting hlt | sent hlt | handed hlt | discarded hlt => exact hlt
  | delivered hlt | lost hlt => exact hlt

/-- An event that is taken from its queue was waiting in it. -/
theorem Stage.remove {k : Nat} {mark : Happening}
    (hmark : e < issued → Stage e issued 0 0 [mark])
    (h : Stage e issued (queued + k) inFlight past) :
    Stage e issued queued inFlight (past ++ List.replicate k mark) := by
  cases k with
  | zero => simpa using h
  | succ k =>
    generalize hn : queued + (k + 1) = total at h
    cases h with
    | waiting hlt =>
      obtain ⟨rfl, rfl⟩ : queued = 0 ∧ k = 0 := by omega
      exact hmark hlt
    | _ => omega

theorem Stage.send (h : Stage e issued (queued + 1) inFlight past) (intercepted : Bool) :
    Stage e issued queued (inFlight + 1)
      (past ++ if intercepted then [] else [.handed e]) := by
  generalize hn : queued + 1 = total at h
  cases h with
  | waiting hlt =>
    obtain rfl : queued = 0 := by omega
    cases intercepted with
    | true => exact .sent hlt
    | false => exact .handed hlt
  | _ => omega

theorem Stage.finish (h : Stage e issued queued (inFlight + 1) past) :
    Stage e issued queued inFlight (past ++ [.deleted e]) := by
  generalize hn : inFlight + 1 = total at h
  cases h with
  | sent hlt =>
    obtain rfl : inFlight = 0 := by omega
    exact .discarded hlt
  | handed hlt =>
    obtain rfl : inFlight = 0 := by omega
    exact .delivered hlt
  | _ => omega

end Stages

/-! ### Counting -/

section Counting

variable {n l e : Nat}

theorem past_append (history hs : List Happening) (e : Nat) :
    past (history ++ hs) e = past history e ++ past hs e :=
  filter_append ..

theorem past_map {mark : Nat → Happening} (hmark : ∀ i, (mark i).event = i)
    (entries : List EventEntry) (e : Nat) :
    past (entries.map fun entry => mark entry.mEvent.id) e =
      List.replicate ((ids entries).count e) (mark e) := by
  induction entries with
  | nil => rfl
  | cons entry entries ih =>
    simp only [past, ids, map_cons, filter_cons, count_cons, hmark] at ih ⊢
    by_cases heq : entry.mEvent.id = e
    · simp [heq, ih, replicate_succ]
    · simp [heq, ih]

theorem count_ids_filter (gone : EventEntry → Bool) (queue : List EventEntry) (e : Nat) :
    (ids (queue.filter fun entry => !gone entry)).count e + (ids (queue.filter gone)).count e =
      (ids queue).count e := by
  induction queue with
  | nil => rfl
  | cons entry queue ih =>
    cases hgone : gone entry <;>
      simp only [ids, filter_cons, hgone, map_cons, count_cons, Bool.not_true,
        Bool.not_false, Bool.false_eq_true, if_true, if_false] at ih ⊢ <;> omega

theorem queued_update (h : l < n) (queue : Nat → List EventEntry) (entries : List EventEntry) :
    queued (update queue l entries) n e + (ids (queue l)).count e =
      queued queue n e + (ids entries).count e := by
  have hfamily : (fun i => ids (update queue l entries i)) =
      update (fun i => ids (queue i)) l (ids entries) := by
    funext i
    exact Function.apply_update (fun _ => ids) queue l entries i
  rw [queued, hfamily]
  exact tally_update h (ids entries)

end Counting

/-! ### The moves conserve -/

/-- The bound can be taken beyond any given loop. -/
theorem Conserved.beyond {L : Ledger} (h : Conserved L) (m : Nat) :
    ∃ n : Nat, m < n ∧ (∀ l : Nat, n ≤ l → L.queue l = []) ∧
      ∀ e, Stage e L.issued (queued L.queue n e) ((ids L.inFlight).count e) (past L.history e) := by
  obtain ⟨n, hempty, hstage⟩ := h
  refine ⟨n + m + 1, by omega, fun l hl => hempty l (by omega), fun e => ?_⟩
  have hids : ∀ l : Nat, n ≤ l → ids (L.queue l) = [] := by
    intro l hl
    rw [hempty l hl]
    rfl
  have hsame : queued L.queue (n + m + 1) e = queued L.queue n e := tally_extend hids (by omega)
  rw [hsame]
  exact hstage e

theorem empty_update {L : Ledger} {n l : Nat} (hempty : ∀ i : Nat, n ≤ i → L.queue i = [])
    (hl : l < n) (queue : List EventEntry) : ∀ i : Nat, n ≤ i → update L.queue l queue i = [] := by
  intro i hi
  have hne : i ≠ l := by omega
  rw [update_of_ne hne]
  exact hempty i hi

theorem Stage.congr {e issued q q' f f' : Nat} {p p' : List Happening} (h : Stage e issued q f p)
    (hq : q' = q) (hf : f' = f) (hp : p' = p) : Stage e issued q' f' p' := by
  rw [hq, hf, hp]
  exact h

section Conservation

variable {L : Ledger} {l : Nat}

section

variable (h : Conserved L) {entry : EventEntry}

include h

theorem Conserved.enqueue (hid : entry.mEvent.id = L.issued) : Conserved { L with
      queue := update L.queue l (insertEntry entry (L.queue l))
      issued := L.issued + 1 } := by
  obtain ⟨n, hl, hempty, hstage⟩ := h.beyond l
  refine ⟨n, empty_update hempty hl _, fun e => ?_⟩
  dsimp only
  have hcount := @queued_update n l e hl L.queue (insertEntry entry (L.queue l))
  have hperm : (ids (insertEntry entry (L.queue l))).count e =
      (ids (L.queue l)).count e + if L.issued = e then 1 else 0 := by
    have := ((insertEntry_perm entry (L.queue l)).map
      fun entry => entry.mEvent.id).count_eq e
    simpa [ids, count_cons, hid] using this
  rw [hperm] at hcount
  by_cases heq : L.issued = e
  · subst heq
    obtain ⟨hq, hf, hp⟩ := (hstage L.issued).of_issued
    rw [if_pos rfl] at hcount
    have hwaiting : Stage L.issued (L.issued + 1) 1 0 [] := .waiting (lt_succ_self _)
    exact hwaiting.congr (by omega) hf hp
  · rw [if_neg heq] at hcount
    exact ((hstage e).issue_other (Ne.symm heq)).congr (by omega) rfl rfl

theorem Conserved.compress : Conserved { L with
      history := L.history ++ [.deleted L.issued]
      issued := L.issued + 1 } := by
  obtain ⟨n, hempty, hstage⟩ := h
  refine ⟨n, hempty, fun e => ?_⟩
  have hpast := past_append L.history [.deleted L.issued] e
  by_cases heq : L.issued = e
  · subst heq
    obtain ⟨hq, hf, hp⟩ := (hstage L.issued).of_issued
    have hdiscarded : Stage L.issued (L.issued + 1) 0 0 [.deleted L.issued] :=
      .discarded (lt_succ_self _)
    rw [hp] at hpast
    exact hdiscarded.congr hq hf (by simpa [past, event] using hpast)
  · apply ((hstage e).issue_other (Ne.symm heq)).congr rfl rfl
    simp [past, event, heq]

/-- Some entries of a queue go, and all their events are marked the same way. -/
theorem Conserved.remove {mark : Nat → Happening} (hmark : ∀ i, (mark i).event = i)
    (hstage : ∀ i, i < L.issued → Stage i L.issued 0 0 [mark i]) (gone : EventEntry → Bool) :
    Conserved { L with
      queue := update L.queue l ((L.queue l).filter fun entry => !gone entry)
      history := L.history ++ ((L.queue l).filter gone).map fun x => mark x.mEvent.id } := by
  obtain ⟨n, hl, hempty, hbefore⟩ := h.beyond l
  refine ⟨n, empty_update hempty hl _, fun e => ?_⟩
  dsimp only
  have hcount := @queued_update n l e hl L.queue ((L.queue l).filter fun entry => !gone entry)
  have hsplit := count_ids_filter gone (L.queue l) e
  have hpast := past_append L.history (((L.queue l).filter gone).map fun entry =>
    mark entry.mEvent.id) e
  rw [past_map hmark] at hpast
  exact (((hbefore e).congr (by omega) rfl rfl).remove (hstage e)).congr rfl rfl hpast

theorem Conserved.lose (l : Nat) : Conserved (L.lose l) := by
  have hgone := h.remove (l := l) (fun _ => rfl) (fun _ => .lost) fun _ => true
  simpa [Ledger.lose] using hgone

theorem Conserved.send {queue : List EventEntry} (hqueue : L.queue l = entry :: queue)
    (intercepted : Bool) : Conserved { L with
      queue := update L.queue l queue
      inFlight := entry :: L.inFlight
      history := L.history ++ if intercepted then [] else [.handed entry.mEvent.id] } := by
  obtain ⟨n, hl, hempty, hstage⟩ := h.beyond l
  refine ⟨n, empty_update hempty hl _, fun e => ?_⟩
  dsimp only
  have hcount := @queued_update n l e hl L.queue queue
  rw [hqueue] at hcount
  simp only [ids, map_cons, count_cons] at hcount
  by_cases heq : entry.mEvent.id = e
  · subst heq
    simp only [beq_self_eq_true, if_true] at hcount
    have hbefore : queued L.queue n entry.mEvent.id =
        queued (update L.queue l queue) n entry.mEvent.id + 1 := by omega
    have hsent := ((hstage entry.mEvent.id).congr hbefore.symm rfl rfl).send intercepted
    refine hsent.congr rfl (by simp [ids]) ?_
    cases intercepted <;> simp [past, event]
  · simp only [beq_iff_eq, heq, if_false] at hcount
    refine (hstage e).congr (by omega) (by simp [ids, heq]) ?_
    cases intercepted <;> simp [past, event, heq]

theorem Conserved.finish {inFlight : List EventEntry}
    (hperm : L.inFlight.Perm (entry :: inFlight)) :
    Conserved { L with inFlight, history := L.history ++ deletions [entry] } := by
  obtain ⟨n, hempty, hstage⟩ := h
  refine ⟨n, hempty, fun e => ?_⟩
  have hcount := (hperm.map fun entry => entry.mEvent.id).count_eq e
  simp only [map_cons, count_cons] at hcount
  by_cases heq : entry.mEvent.id = e
  · subst heq
    simp only [beq_self_eq_true, if_true] at hcount
    have hdone : Stage entry.mEvent.id L.issued _ _ _ :=
      ((hstage entry.mEvent.id).congr rfl hcount.symm rfl).finish
    refine hdone.congr rfl rfl ?_
    simp [past, deletions, event]
  · simp only [beq_iff_eq, heq, if_false] at hcount
    refine (hstage e).congr rfl hcount.symm ?_
    simp [past, deletions, event, heq]

theorem Conserved.transfer {l' : Nat} (hne : l ≠ l')
    (taken : EventEntry → Bool) : Conserved (L.transfer l l' taken) := by
  obtain ⟨n, hll, hempty, hstage⟩ := h.beyond (l + l')
  have hl : l < n := by omega
  have hl' : l' < n := by omega
  have hrest := empty_update hempty hl ((L.queue l).filter fun entry => !taken entry)
  refine ⟨n, ?_, fun e => ?_⟩
  · intro i hi
    rw [transfer_queue]
    have hi' : i ≠ l' := by omega
    rw [update_of_ne hi']
    exact hrest i hi
  · rw [transfer_queue]
    have hfrom := @queued_update n l e hl L.queue ((L.queue l).filter fun entry => !taken entry)
    have hto := @queued_update n l' e hl'
      (update L.queue l ((L.queue l).filter fun entry => !taken entry))
      (L.queue l' ++ (L.queue l).filter taken)
    rw [update_of_ne (Ne.symm hne)] at hto
    have hsplit := count_ids_filter taken (L.queue l) e
    have happend : (ids (L.queue l' ++ (L.queue l).filter taken)).count e =
        (ids (L.queue l')).count e + (ids ((L.queue l).filter taken)).count e := by
      rw [ids, map_append, count_append]
      rfl
    exact (hstage e).congr (by omega) rfl rfl

end

theorem Move.conserved {L' : Ledger} (hmove : Move L L') (h : Conserved L) : Conserved L' := by
  cases hmove with
  | enqueue _ _ hid => exact h.enqueue hid
  | compress => exact h.compress
  | discard => exact h.remove (fun _ => rfl) (fun _ => .discarded) _
  | send _ _ _ intercepted hqueue => exact h.send hqueue intercepted
  | finish _ _ hperm => exact h.finish hperm

theorem Conserved.moves {L' : Ledger} (h : Conserved L) (hmoves : Relation.ReflTransGen Move L L') :
    Conserved L' := by
  induction hmoves with
  | refl => exact h
  | tail _ hmove ih => exact hmove.conserved ih

end Conservation

/-! ### Losses -/

/-- No event has been lost. -/
def Lossless (L : Ledger) : Prop := ∀ e, .lost e ∉ L.history

section Losses

variable {L L' : Ledger}

theorem Move.lossless_iff (hmove : Move L L') : Lossless L' ↔ Lossless L := by
  cases hmove with
  | send _ _ _ intercepted => cases intercepted <;> simp [Lossless]
  | _ => simp [Lossless, deletions]

theorem lossless_moves_iff (hmoves : Relation.ReflTransGen Move L L') :
    Lossless L' ↔ Lossless L := by
  induction hmoves with
  | refl => exact .rfl
  | tail _ hmove ih => exact hmove.lossless_iff.trans ih

/-- A queue goes without a loss exactly if it is empty. -/
theorem lossless_lose_iff {l : Nat} (h : Lossless L) : Lossless (L.lose l) ↔ L.queue l = [] := by
  constructor
  · intro hlose
    refine eq_nil_iff_forall_not_mem.mpr fun entry hentry => ?_
    exact hlose entry.mEvent.id (mem_append_right _ (mem_map_of_mem hentry))
  · intro hempty e he
    rw [lose, hempty, map_nil, append_nil] at he
    exact h e he

end Losses

/-! ### The order of the queues -/

/-- Every queue is ordered. -/
def Ordered (L : Ledger) : Prop := ∀ l, EventQueue.Ordered (L.queue l)

section Order

variable {L L' : Ledger} {l : Nat}

/-- Whatever is queued has been issued. -/
theorem Conserved.issued_of_mem {entry : EventEntry} (h : Conserved L) (hmem : entry ∈ L.queue l) :
    entry.mEvent.id < L.issued := by
  obtain ⟨n, hl, -, hstage⟩ := h.beyond l
  have hcount : 0 < (ids (L.queue l)).count entry.mEvent.id :=
    count_pos_iff.mpr (mem_map_of_mem hmem)
  have hle : queued L.queue n entry.mEvent.id ≠ 0 := by
    intro hzero
    have := tally_eq_zero hzero l hl
    omega
  exact (hstage entry.mEvent.id).lt_of_queued hle

theorem Ordered.update (h : Ordered L) {queue : List EventEntry}
    (hqueue : EventQueue.Ordered queue) :
    ∀ i, EventQueue.Ordered (update L.queue l queue i) := by
  intro i
  rcases eq_or_ne i l with rfl | hne
  · rw [update_self]
    exact hqueue
  · rw [update_of_ne hne]
    exact h i

theorem Move.ordered (hmove : Move L L') (hconserved : Conserved L) (h : Ordered L) :
    Ordered L' := by
  cases hmove with
  | enqueue l entry hid =>
    apply h.update
    apply (h l).insertEntry
    intro it hit
    rw [hid]
    exact hconserved.issued_of_mem hit
  | compress => exact h
  | discard l gone => exact h.update ((h l).sublist filter_sublist)
  | send l entry queue intercepted hqueue =>
    apply h.update
    have htail := h l
    rw [hqueue] at htail
    exact (pairwise_cons.mp htail).2
  | finish => exact h

theorem Ordered.moves (h : Ordered L) (hconserved : Conserved L)
    (hmoves : Relation.ReflTransGen Move L L') : Ordered L' := by
  induction hmoves with
  | refl => exact h
  | tail hbefore hmove ih => exact hmove.ordered (hconserved.moves hbefore) ih

theorem Ordered.lose (h : Ordered L) (l : Nat) : Ordered (L.lose l) :=
  h.update Pairwise.nil

/-- A transfer keeps the order exactly if every entry of the target may stand in front of
every entry that arrives. -/
theorem transfer_ordered_iff {l' : Nat} (h : Ordered L) (taken : EventEntry → Bool) :
    Ordered (L.transfer l l' taken) ↔
      ∀ a ∈ L.queue l', ∀ b ∈ L.queue l, taken b = true → EventQueue.Before a b := by
  have htaken : EventQueue.Ordered ((L.queue l).filter taken) := (h l).sublist filter_sublist
  have happend := EventQueue.Ordered.append_iff (h l') htaken
  constructor
  · intro hordered a ha b hb hb'
    have hl' := hordered l'
    rw [transfer_queue, update_self] at hl'
    exact happend.mp hl' a ha b (mem_filter.mpr ⟨hb, hb'⟩)
  · intro hbefore i
    rcases eq_or_ne i l' with rfl | hne
    · rw [transfer_queue, update_self]
      apply happend.mpr
      intro a ha b hb
      rw [mem_filter] at hb
      exact hbefore a ha b hb.1 hb.2
    · rw [transfer_queue, update_of_ne hne]
      exact h.update ((h l).sublist filter_sublist) i

end Order

end Ledger

end CxxKit.Kernel
