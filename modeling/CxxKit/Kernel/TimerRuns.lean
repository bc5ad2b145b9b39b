import CxxKit.Kernel.Timers

/-!
# Timers of objects: whole runs

What keeps timers and objects together is that a timer of a dispatcher is among the active timers
of its object, which is alive and belongs to that loop, and that an id that is active for an object
names no timer of another one on the object's loop (`Sound`).  Every call that meets the conditions
keeps this.

The conditions are needed: a posted one-shot timer outlives its object, timers stay behind on the
loop that an object leaves, and their ids stop timers of others on the loop that it joins
(`timers_unsafe`).
-/

namespace CxxKit.Timers

open Function List State Transition

/-! ### Parts of the state -/

@[simp] theorem setObject_objects_self (s : State) (o : Nat) (object : Object) :
    (s.setObject o object).objects o = object := by
  simp [setObject]

variable {o l id : Nat} {s t : State} {current : Option Nat} {tick : Tick}

theorem setObject_objects_ne (s : State) {x : Nat} (object : Object) (h : x ≠ o) :
    (s.setObject o object).objects x = s.objects x := by
  simp [setObject, h]

@[simp] theorem setLoop_loops_self (s : State) (l : Nat) (loop : EventLoop) :
    (s.setLoop l loop).loops l = loop := by
  simp [setLoop]

theorem setLoop_loops_ne (s : State) {k : Nat} (loop : EventLoop) (h : k ≠ l) :
    (s.setLoop l loop).loops k = s.loops k := by
  simp [setLoop, h]

@[simp] theorem setLoop_objects (s : State) (l : Nat) (loop : EventLoop) :
    (s.setLoop l loop).objects = s.objects := rfl

/-- Stopping timers one after the other leaves those with other ids, and the rest of the loop. -/
theorem stopAll_eq (l : EventLoop) : ∀ ids : List Nat, ids.foldr (fun id l => l.stopTimer id) l =
      { l with timers := l.timers.filter (·.tick.id ∉ ids) }
  | [] => by
    have hall : l.timers.filter (·.tick.id ∉ []) = l.timers :=
      filter_eq_self.mpr fun _ _ => by simp
    rw [hall]
    rfl
  | id :: ids => by
    rw [foldr_cons, stopAll_eq l, EventLoop.stopTimer]
    simp only [filter_filter, mem_cons, not_or, Bool.decide_and]

/-! ### The invariant -/

/-- A timer on loop `l`, seen from its object. -/
structure Armed (s : State) (l : Nat) (tick : Tick) : Prop where
  alive : (s.objects tick.owner).life = .alive
  here : (s.objects tick.owner).mThread = some l
  active : tick.id ∈ (s.objects tick.owner).mActiveTimers

/-- The loops do not matter to it, and of the objects only the owner does. -/
theorem Armed.congr (h : Armed s l tick) (hsame : t.objects tick.owner = s.objects tick.owner) :
    Armed t l tick where
  alive := by rw [hsame, h.alive]
  here := by rw [hsame, h.here]
  active := by
    rw [hsame]
    exact h.active

structure Sound (s : State) : Prop where
  safe : Safe s
  armed : ∀ l, ∀ r ∈ (s.loops l).timers, Armed s l r.tick
  posted : ∀ l, ∀ tick ∈ (s.loops l).posted, (s.objects tick.owner).life = .alive
  /-- ids that are active were given out by the loop -/
  counted : ∀ o l, (s.objects o).mThread = some l → ∀ id ∈ (s.objects o).mActiveTimers,
    id ≤ (s.loops l).mNextTimerId
  /-- an active id names no timer of another object -/
  owned : ∀ o l, (s.objects o).mThread = some l → ∀ r ∈ (s.loops l).timers,
    r.tick.id ∈ (s.objects o).mActiveTimers → r.tick.owner = o

/-- A loop that loses timers and closures, or only changes its flags. -/
theorem Sound.setLoop (h : Sound s) (l : Nat) (loop : EventLoop)
    (htimers : ∀ r ∈ loop.timers, r ∈ (s.loops l).timers)
    (hposted : ∀ tick ∈ loop.posted, tick ∈ (s.loops l).posted)
    (hnext : loop.mNextTimerId = (s.loops l).mNextTimerId) : Sound (s.setLoop l loop) := by
  have hsub : ∀ k, (∀ r ∈ ((s.setLoop l loop).loops k).timers, r ∈ (s.loops k).timers) ∧
      (∀ tick ∈ ((s.setLoop l loop).loops k).posted, tick ∈ (s.loops k).posted) ∧
      ((s.setLoop l loop).loops k).mNextTimerId = (s.loops k).mNextTimerId := by
    intro k
    rcases eq_or_ne k l with rfl | hne
    · rw [setLoop_loops_self]
      exact ⟨htimers, hposted, hnext⟩
    · rw [setLoop_loops_ne s loop hne]
      exact ⟨fun _ hr => hr, fun _ ht => ht, rfl⟩
  refine ⟨h.safe, fun k r hr => (h.armed k r ((hsub k).1 r hr)).congr rfl,
    fun k tick ht => h.posted k tick ((hsub k).2.1 tick ht), fun o k hk id hid => ?_,
    fun o k hk r hr hid => h.owned o k hk r ((hsub k).1 r hr) hid⟩
  rw [(hsub k).2.2]
  exact h.counted o k hk id hid

/-- The closure of an object that is alive does no harm. -/
theorem call_of_alive (h : (s.objects tick.owner).life = .alive) : s.call tick = s := if_pos h

/-! ### The calls -/

/-- An object that no timer names can change, when no timer is active for it afterwards and it is
alive if a closure names it. -/
structure Unarmed (s t : State) (x : Nat) : Prop where
  timers : ∀ l, ∀ r ∈ (s.loops l).timers, r.tick.owner ≠ x
  posted : ∀ l, ∀ tick ∈ (s.loops l).posted, tick.owner = x → (t.objects x).life = .alive
  idle : (t.objects x).mThread = none ∨ (t.objects x).mActiveTimers = []

theorem Sound.relink (h : Sound s) (hloops : t.loops = s.loops) (hsafe : Safe t)
    (hobjects : ∀ x, t.objects x = s.objects x ∨ Unarmed s t x) : Sound t := by
  -- an object with an active timer on its loop is as before
  have hactive : ∀ x l id, (t.objects x).mThread = some l → id ∈ (t.objects x).mActiveTimers →
      t.objects x = s.objects x := by
    intro x l id hl hid
    refine (hobjects x).resolve_right fun hx => ?_
    rcases hx.idle with hnone | hnil
    · cases hnone.symm.trans hl
    · rw [hnil] at hid
      exact absurd hid not_mem_nil
  refine ⟨hsafe, fun l r hr => ?_, fun l tick ht => ?_, fun x l hl id hid => ?_,
    fun x l hl r hr hid => ?_⟩
  · rw [hloops] at hr
    exact (h.armed l r hr).congr
      ((hobjects r.tick.owner).resolve_right fun hx => hx.timers l r hr rfl)
  · rw [hloops] at ht
    rcases hobjects tick.owner with hsame | hx
    · rw [hsame]
      exact h.posted l tick ht
    · exact hx.posted l tick ht rfl
  · have hsame := hactive x l id hl hid
    rw [hsame] at hl hid
    rw [hloops]
    exact h.counted x l hl id hid
  · have hsame := hactive x l _ hl hid
    rw [hsame] at hl hid
    rw [hloops] at hr
    exact h.owned x l hl r hr hid

theorem create_sound (h : Sound s) (hstep : create s o current = some t) : Sound t := by
  unfold create at hstep
  split at hstep
  case isFalse => cases hstep
  case isTrue hcan =>
    cases hstep
    -- whoever is named by a timer or a closure is alive already
    have hunborn : ∀ x, (s.objects x).life = .alive → x ≠ o := by
      rintro x hx rfl
      exact absurd (hcan.1.symm.trans hx) (by decide)
    refine h.relink rfl h.safe fun x => ?_
    rcases eq_or_ne x o with rfl | hne
    · refine .inr ⟨fun l r hr => hunborn _ (h.armed l r hr).alive, fun l tick ht howner => ?_, ?_⟩
      · exact absurd howner (hunborn _ (h.posted l tick ht))
      · exact .inr (by rw [setObject_objects_self])
    · exact .inl (setObject_objects_ne s _ hne)

/-- Only objects without active timers change their loop. -/
theorem moveToLoop_sound {below : List Nat} {target : Option Nat}
    (h : Sound s) (hcareful : Careful s (.moveToLoop o below target))
    (hstep : moveToLoop s o below target = some t) : Sound t := by
  unfold moveToLoop at hstep
  dsimp only at hstep
  split at hstep
  case isFalse => cases hstep
  case isTrue halive =>
    split at hstep
    case isTrue =>
      cases hstep
      exact h
    case isFalse hmoves =>
      split at hstep
      case isTrue => cases hstep
      case isFalse =>
        cases hstep
        have hidle := hcareful.resolve_left hmoves
        refine h.relink rfl h.safe fun x => ?_
        by_cases hx : x ∈ o :: below
        · rcases hidle x hx with hthere | hnil
          · refine .inl ((if_pos hx).trans ?_)
            rw [← hthere]
          · refine .inr ⟨fun l r hr howner => ?_, fun l tick _ _ => ?_, .inr ?_⟩
            · have hactive := (h.armed l r hr).active
              rw [howner, hnil] at hactive
              exact absurd hactive not_mem_nil
            · exact (congrArg Object.life (if_pos hx)).trans (halive x hx)
            · exact (congrArg Object.mActiveTimers (if_pos hx)).trans hnil
        · exact .inl (if_neg hx)

/-- A call of an object on its own loop: each timer of the loop afterwards is one of the object,
active for it and either there before or new, or one of another object that was there before and is
not active for this one. -/
structure Fits (s : State) (o l : Nat) (object : Object) (r : Registration) : Prop where
  own : r.tick.owner = o → object.life = .alive ∧ r.tick.id ∈ object.mActiveTimers
  other : r.tick.id ∈ object.mActiveTimers → r.tick.owner = o
  known : r ∈ (s.loops l).timers ∨
    (r.tick.owner = o ∧ (s.loops l).mNextTimerId < r.tick.id)

/-- An object and its loop after a call. -/
structure Updated (s t : State) (o l : Nat) (object : Object) (loop : EventLoop) : Prop where
  objects : t.objects = update s.objects o object
  loops : t.loops = update s.loops l loop
  before : (s.objects o).mThread = some l
  after : object.mThread = some l
  next : (s.loops l).mNextTimerId ≤ loop.mNextTimerId
  counted : ∀ id ∈ object.mActiveTimers, id ≤ loop.mNextTimerId
  timers : ∀ r ∈ loop.timers, Fits s o l object r
  posted : ∀ tick ∈ loop.posted, tick ∈ (s.loops l).posted ∨ tick.owner = o
  live : ∀ k, ∀ tick ∈ (t.loops k).posted, tick.owner = o → object.life = .alive

namespace Updated

variable {object : Object} {loop : EventLoop}

theorem object_eq (u : Updated s t o l object loop) : t.objects o = object := by
  rw [u.objects, update_self]

variable {x k : Nat}

section

variable (u : Updated s t o l object loop) {r : Registration}

include u

theorem objects_ne (h : x ≠ o) : t.objects x = s.objects x := by
  rw [u.objects, update_of_ne h]

theorem loop_eq : t.loops l = loop := by
  rw [u.loops, update_self]

theorem loops_ne (h : k ≠ l) : t.loops k = s.loops k := by
  rw [u.loops, update_of_ne h]

variable (h : Sound s)
include h

theorem armed (hr : r ∈ (t.loops k).timers) : Armed t k r.tick := by
  rcases eq_or_ne k l with rfl | hkl
  · rw [u.loop_eq] at hr
    have hfits := u.timers r hr
    rcases eq_or_ne r.tick.owner o with howner | howner
    · obtain ⟨halive, hactive⟩ := hfits.own howner
      exact ⟨by rw [howner, u.object_eq, halive], by rw [howner, u.object_eq, u.after],
        by rwa [howner, u.object_eq]⟩
    · have hold := hfits.known.resolve_right fun hnew => howner hnew.1
      exact (h.armed k r hold).congr (u.objects_ne howner)
  · rw [u.loops_ne hkl] at hr
    -- the timers of the object are on its own loop
    have howner : r.tick.owner ≠ o := by
      intro howner
      have hhere := (h.armed k r hr).here
      rw [howner, u.before] at hhere
      exact hkl (Option.some.inj hhere).symm
    exact (h.armed k r hr).congr (u.objects_ne howner)

theorem posted_alive {tick : Tick} (ht : tick ∈ (t.loops k).posted) :
    (t.objects tick.owner).life = .alive := by
  rcases eq_or_ne tick.owner o with howner | howner
  · rw [howner, u.object_eq]
    exact u.live k tick ht howner
  · rw [u.objects_ne howner]
    rcases eq_or_ne k l with rfl | hkl
    · rw [u.loop_eq] at ht
      exact h.posted k tick ((u.posted tick ht).resolve_right howner)
    · rw [u.loops_ne hkl] at ht
      exact h.posted k tick ht

variable (hxk : (t.objects x).mThread = some k)
include hxk

theorem id_le {id : Nat} (hid : id ∈ (t.objects x).mActiveTimers) :
    id ≤ (t.loops k).mNextTimerId := by
  rcases eq_or_ne x o with rfl | hne
  · rw [u.object_eq] at hxk hid
    cases u.after.symm.trans hxk
    rw [u.loop_eq]
    exact u.counted id hid
  · rw [u.objects_ne hne] at hxk hid
    have hle := h.counted x k hxk id hid
    rcases eq_or_ne k l with rfl | hkl
    · rw [u.loop_eq]
      exact Nat.le_trans hle u.next
    · rwa [u.loops_ne hkl]

theorem owner_eq (hr : r ∈ (t.loops k).timers) (hid : r.tick.id ∈ (t.objects x).mActiveTimers) :
    r.tick.owner = x := by
  rcases eq_or_ne x o with rfl | hne
  · rw [u.object_eq] at hxk hid
    cases u.after.symm.trans hxk
    rw [u.loop_eq] at hr
    exact (u.timers r hr).other hid
  · rw [u.objects_ne hne] at hxk hid
    rcases eq_or_ne k l with rfl | hkl
    · rw [u.loop_eq] at hr
      rcases (u.timers r hr).known with hold | ⟨-, hnew⟩
      · exact h.owned x k hxk r hold hid
      · -- the id is new, and active for no object yet
        exact absurd (h.counted x k hxk r.tick.id hid) (Nat.not_le.mpr hnew)
    · rw [u.loops_ne hkl] at hr
      exact h.owned x k hxk r hr hid

end

end Updated

section

variable (h : Sound s) {r : Registration}
include h

theorem Sound.update {object : Object} {loop : EventLoop} (u : Updated s t o l object loop)
    (hsafe : Safe t) : Sound t where
  safe := hsafe
  armed _ _ hr := u.armed h hr
  posted _ _ ht := u.posted_alive h ht
  counted _ _ hxk _ hid := u.id_le h hxk hid
  owned _ _ hxk _ hr hid := u.owner_eq h hxk hr hid

omit h in
/-- What `EventLoop::start_timer` adds: a registration or a closure of the new id. -/
theorem startTimer_parts (l : EventLoop) (o intervalMs : Nat) (repeats : Bool) :
    (l.startTimer o intervalMs repeats).mNextTimerId = l.mNextTimerId + 1 ∧
      (∀ r ∈ (l.startTimer o intervalMs repeats).timers,
        r ∈ l.timers ∨ r.tick = ⟨o, l.mNextTimerId + 1⟩) ∧
      ∀ tick ∈ (l.startTimer o intervalMs repeats).posted,
        tick ∈ l.posted ∨ tick = ⟨o, l.mNextTimerId + 1⟩ := by
  have hregister : ∀ (l : EventLoop) r', ∀ r ∈ (l.register r').timers,
      r ∈ l.timers ∨ r.tick = r'.tick := by
    intro l r' r hr
    rcases mem_cons.mp hr with rfl | hr
    · exact .inr rfl
    · exact .inl (mem_filter.mp hr).1
  unfold EventLoop.startTimer
  split
  · exact ⟨rfl, hregister _ _, fun _ ht => .inl ht⟩
  · split
    · refine ⟨rfl, fun _ hr => .inl hr, fun tick ht => ?_⟩
      rcases mem_append.mp ht with hqueue | hdrain
      · rcases mem_append.mp hqueue with hqueue | hnew
        · exact .inl (mem_append_left _ hqueue)
        · exact .inr (mem_singleton.mp hnew)
      · exact .inl (mem_append_right _ hdrain)
    · exact ⟨rfl, hregister _ _, fun _ ht => .inl ht⟩

/-- A timer on a loop has an id that the loop gave out. -/
theorem Sound.id_le (hr : r ∈ (s.loops l).timers) : r.tick.id ≤ (s.loops l).mNextTimerId := by
  obtain ⟨-, hhere, hactive⟩ := h.armed l r hr
  exact h.counted r.tick.owner l hhere r.tick.id hactive

theorem startTimer_sound {intervalMs : Nat} {repeats : Bool}
    (hstep : startTimer s o current intervalMs repeats = some t) : Sound t := by
  unfold startTimer at hstep
  cases hthread : (s.objects o).mThread with
  | none =>
    rw [hthread] at hstep
    cases hstep
  | some l =>
    rw [hthread] at hstep
    dsimp only at hstep
    split at hstep
    case isFalse => cases hstep
    case isTrue hcan =>
      cases hstep
      obtain ⟨hnext, htimers, hposted⟩ := startTimer_parts (s.loops l) o intervalMs repeats
      refine h.update ⟨rfl, rfl, hthread, hthread, by omega, ?_, ?_, ?_,
        fun _ _ _ _ => hcan.1⟩ h.safe
      · intro id hid
        rw [hnext]
        rcases mem_append.mp hid with hold | hnew
        · exact Nat.le_trans (h.counted o l hthread id hold) (Nat.le_succ _)
        · exact Nat.le_of_eq (mem_singleton.mp hnew)
      · intro r hr
        rcases htimers r hr with hold | hnew
        · have hle := h.id_le hold
          have hactive : r.tick.id ∈ (s.objects o).mActiveTimers ++ [(s.loops l).mNextTimerId + 1] →
              r.tick.id ∈ (s.objects o).mActiveTimers := by
            intro hid
            rcases mem_append.mp hid with hid | hid
            · exact hid
            · exact absurd (mem_singleton.mp hid) (by omega)
          refine ⟨fun howner => ⟨hcan.1, mem_append_left _ ?_⟩,
            fun hid => h.owned o l hthread r hold (hactive hid), .inl hold⟩
          rw [← howner]
          exact (h.armed l r hold).active
        · rw [show r = ⟨⟨o, (s.loops l).mNextTimerId + 1⟩, r.repeats⟩ from by rw [← hnew]]
          exact ⟨fun _ => ⟨hcan.1, mem_append_right _ (mem_singleton_self _)⟩,
            fun _ => rfl, .inr ⟨rfl, Nat.lt_succ_self _⟩⟩
      · intro tick ht
        rcases hposted tick ht with hold | hnew
        · exact .inl hold
        · exact .inr (by rw [hnew])

/-- Stopping active timers of an object stops no timer of another one. -/
theorem Sound.stop_safe (hthread : (s.objects o).mThread = some l) (ids : List Nat)
    (hids : ∀ id ∈ ids, id ∈ (s.objects o).mActiveTimers) :
    (s.stoppedOther || stopsOther (s.loops l) o ids) = false := by
  rw [h.safe.2, Bool.false_or, stopsOther, any_eq_false]
  intro r hr
  rw [Bool.and_eq_true, decide_eq_true_iff, bne_iff_ne]
  rintro ⟨hid, hne⟩
  exact hne (h.owned o l hthread r hr (hids _ hid))

theorem killTimer_sound (hid : id ∈ (s.objects o).mActiveTimers)
    (hstep : killTimer s o current id = some t) : Sound t := by
  unfold killTimer at hstep
  cases hthread : (s.objects o).mThread with
  | none =>
    rw [hthread] at hstep
    cases hstep
  | some l =>
    rw [hthread] at hstep
    dsimp only at hstep
    split at hstep
    case isFalse => cases hstep
    case isTrue hcan =>
      cases hstep
      have hother := h.stop_safe hthread [id]
        fun x hx => mem_singleton.mp hx ▸ hid
      refine h.update ⟨rfl, rfl, hthread, hthread, Nat.le_refl _, ?_, ?_,
        fun _ ht => .inl ht, fun _ _ _ _ => hcan.1⟩ ⟨h.safe.1, hother⟩
      · intro x hx
        exact h.counted o l hthread x (mem_filter.mp hx).1
      · intro r hr
        obtain ⟨hold, hne⟩ := mem_filter.mp hr
        refine ⟨fun howner => ⟨hcan.1, mem_filter.mpr ⟨?_, hne⟩⟩,
          fun hx => h.owned o l hthread r hold (mem_filter.mp hx).1, .inl hold⟩
        rw [← howner]
        exact (h.armed l r hold).active

/-- An object that belongs to no loop has no timer on any. -/
theorem Sound.destroy_loose (hloose : (s.objects o).mThread = none)
    (hposted : ∀ l, ∀ tick ∈ (s.loops l).posted, tick.owner ≠ o) :
    Sound (s.setObject o { s.objects o with life := .destroyed }) := by
  refine h.relink rfl h.safe fun x => ?_
  rcases eq_or_ne x o with rfl | hne
  · refine .inr ⟨fun l r hr howner => ?_, fun l tick ht howner => ?_, .inl ?_⟩
    · have hhere := (h.armed l r hr).here
      rw [howner, hloose] at hhere
      cases hhere
    · exact absurd howner (hposted l tick ht)
    · rw [setObject_objects_self]
      exact hloose
  · exact .inl (setObject_objects_ne s _ hne)

/-- On its own thread a destroyed object leaves no timer behind, and no closure when none was
posted. -/
theorem destroy_sound (hthread : ∀ l, (s.objects o).mThread = some l → current = some l)
    (hposted : ∀ l, ∀ tick ∈ (s.loops l).posted, tick.owner ≠ o)
    (hstep : destroy s o current = some t) : Sound t := by
  unfold destroy at hstep
  split at hstep
  case isFalse => cases hstep
  case isTrue hcan =>
    dsimp only at hstep
    cases hl : (s.objects o).mThread with
    | none =>
      have hdestroyed := h.destroy_loose hl hposted
      dsimp only at hdestroyed
      rw [hl] at hstep hdestroyed
      cases hstep
      exact hdestroyed
    | some l =>
      rw [hl] at hstep
      dsimp only at hstep
      rw [if_pos (hthread l hl), stopAll_eq] at hstep
      cases hstep
      have hother := h.stop_safe hl (s.objects o).mActiveTimers fun _ hx => hx
      have hgone : ∀ k, ∀ tick ∈ (update s.loops l { s.loops l with
          timers := (s.loops l).timers.filter (·.tick.id ∉ (s.objects o).mActiveTimers) } k).posted,
          tick.owner ≠ o := by
        intro k tick ht
        rcases eq_or_ne k l with rfl | hne
        · rw [update_self] at ht
          exact hposted k tick ht
        · rw [update_of_ne hne] at ht
          exact hposted k tick ht
      refine h.update ⟨rfl, rfl, hl, rfl, Nat.le_refl _,
        fun _ hx => absurd hx not_mem_nil, ?_, fun _ ht => .inl ht,
        fun k tick ht howner => absurd howner (hgone k tick ht)⟩ ⟨h.safe.1, hother⟩
      intro r hr
      obtain ⟨hold, hne⟩ := mem_filter.mp hr
      refine ⟨fun howner => absurd ?_ (of_decide_eq_true hne),
        fun hx => absurd hx not_mem_nil, .inl hold⟩
      rw [← howner]
      exact (h.armed l r hold).active

/-! ### The loops -/

omit h in
theorem mem_stopTimer {l : EventLoop} (hr : r ∈ (l.stopTimer id).timers) : r ∈ l.timers :=
  (mem_filter.mp hr).1

theorem fire_sound (hstep : fire s l id = some t) : Sound t := by
  unfold fire at hstep
  cases hfind : (s.loops l).timers.find? (·.tick.id = id) with
  | none =>
    rw [hfind] at hstep
    cases hstep
  | some r =>
    rw [hfind] at hstep
    cases hstep
    have halive := (h.armed l r (mem_of_find?_eq_some hfind)).alive
    split
    · rwa [call_of_alive halive]
    · rw [call_of_alive (by rwa [setLoop_objects])]
      exact h.setLoop l _ (fun _ hr => mem_stopTimer hr) (fun _ ht => ht) rfl

theorem runPosted_sound (hstep : runPosted s l = some t) : Sound t := by
  unfold runPosted at hstep
  dsimp only at hstep
  split at hstep
  case h_1 tick rest outer hdraining =>
    cases hstep
    have hmem : tick ∈ (s.loops l).posted :=
      mem_append_right _ (by rw [hdraining]; exact mem_cons_self)
    rw [call_of_alive (by exact h.posted l tick hmem)]
    refine h.setLoop l _ (fun _ hr => hr) (fun x hx => ?_) rfl
    rcases mem_append.mp hx with hqueue | hrest
    · exact mem_append_left _ hqueue
    · refine mem_append_right _ ?_
      rw [hdraining]
      exact mem_cons_of_mem _ hrest
  case h_2 => cases hstep

end

theorem step_sound (s : State) (a : Label) (t : State) (h : Sound s)
    (hmeets : OnAffinityThread s a ∧ Careful s a) (hstep : machine.step s a = some t) :
    Sound t := by
  cases a with
  | create o current => exact create_sound h hstep
  | startTimer o current intervalMs repeats => exact startTimer_sound h hstep
  | killTimer o current id => exact killTimer_sound h hmeets.2 hstep
  | moveToLoop o below target => exact moveToLoop_sound h hmeets.2 hstep
  | destroy o current => exact destroy_sound h hmeets.1 hmeets.2 hstep
  | exec l =>
    change exec s l = some t at hstep
    unfold exec at hstep
    dsimp only at hstep
    split at hstep
    case isTrue => cases hstep
    case isFalse =>
      cases hstep
      exact h.setLoop l _ (fun _ hr => hr) (fun _ ht => ht) rfl
  | exit l | takePosts l =>
    cases hstep
    exact h.setLoop l _ (fun _ hr => hr) (fun _ ht => ht) rfl
  | leave l =>
    dsimp only [machine] at hstep
    split at hstep
    case isTrue =>
      cases hstep
      exact h.setLoop l _ (fun _ hr => hr) (fun _ ht => ht) rfl
    case isFalse => cases hstep
  | fire l id => exact fire_sound h hstep
  | runPosted l => exact runPosted_sound h hstep
  | drained l =>
    dsimp only [machine] at hstep
    split at hstep
    case h_1 outer hdraining =>
      cases hstep
      refine h.setLoop l _ (fun _ hr => hr) (fun x hx => ?_) rfl
      rw [EventLoop.posted, hdraining]
      exact hx
    case h_2 => cases hstep

/-! ### Whole runs -/

end CxxKit.Timers
