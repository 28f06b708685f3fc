import ESPressioSystem.DeferredSignalPublication
import ESPressioSystem.Refinement

set_option autoImplicit false

/-!
# A deferred signal is an atomic signal that some provider makes at one moment
-/
namespace ESPressioSystem.DeferredSignalRefinement
open Transition Refinement SharedObject SynchronizationProvider Platform Signal DeferredSignal
open LazyLock (Lock)

section
variable {Thread : Type}

/-- Before a provider has made the signal, all calls are refused and change nothing. -/
def deferredObject (k : SignalKind Thread) (initiallySet : Bool) :
    AtomicObject Thread SignalOp PlatformResult where
  State := Option k.State
  Internal := ProviderId
  init := none
  perform
    | none, _, _, ret => if ret = unavailable then some none else none
    | some x, t, op, ret => (k.perform x t op ret).map some
  internal
    | none, p => some (some (k.create p initiallySet))
    | some _, _ => none

/-- When `Resolve` has found no signal, it is settled that the call is refused. -/
def callStatus : DeferredSignal.Pc → Status SignalOp PlatformResult
  | .idle => .idle
  | .loadResolved op | .lockMutex op | .reloadResolved op | .loadProvider op | .callFactory op _
  | .storeResolved op _ | .callSignal op _ | .unlockMutex op (some _) => .called op
  | .unlockMutex op none | .returnUnavailable op => .done op unavailable
  | .loadForInterrupt => .called .giveFromInterrupt

variable [DecidableEq Thread] {k : SignalKind Thread}

def signalShows (s : State k) :
    DeferredSignal.Action Thread → List (CallEvent Thread SignalOp PlatformResult)
  | .invoke t op => [.invoked t op]
  | .advance t =>
    match s.pc t with
    | .returnUnavailable op => [.returned t op unavailable]
    | _ => []
  | .perform t ret =>
    match s.pc t with
    | .callSignal op _ => [.returned t op ret]
    | _ => []
  | .change _ | .mutexStep _ | .create _ _ => []

structure Matches (initiallySet : Bool) (s : State k)
    (c : Configuration (deferredObject k initiallySet)) : Prop where
  invariant : Invariant initiallySet s
  object : c.object = s.resolved.map s.objects
  status : ∀ t, c.status t = callStatus (s.pc t)

variable {initiallySet : Bool} {s s' : State k} {c : Configuration (deferredObject k initiallySet)}

theorem status_goto {status : Thread → Status SignalOp PlatformResult}
    (h : ∀ u, status u = callStatus (s.pc u)) (t : Thread) (b : DeferredSignal.Pc) (u : Thread) :
    Function.update status t (callStatus b) u = callStatus (Function.update s.pc t b u) := by
  by_cases hu : u = t
  · subst hu
    rw [Function.update_self, Function.update_self]
  · rw [Function.update_of_ne hu, Function.update_of_ne hu, h u]

theorem status_kept {status : Thread → Status SignalOp PlatformResult}
    (h : ∀ u, status u = callStatus (s.pc u)) {t : Thread} {b : DeferredSignal.Pc}
    (same : callStatus b = callStatus (s.pc t)) (u : Thread) :
    status u = callStatus (Function.update s.pc t b u) := by
  rw [← status_goto h t b u, same, ← h t, Function.update_eq_self]

theorem status_entry (op : SignalOp) : callStatus (entry op) = .called op := by
  cases op <;> rfl

def Follows (s s' : State k) (a : DeferredSignal.Action Thread)
    (c : Configuration (deferredObject k initiallySet)) : Prop :=
  ∃ moves d, run move c moves = some d ∧
    trace move moveShows c moves = signalShows s a ∧ d.object = s'.resolved.map s'.objects ∧
      ∀ t, d.status t = callStatus (s'.pc t)

theorem refuse (hs : Matches initiallySet s c) {t : Thread} {op : SignalOp}
    (called : callStatus (s.pc t) = .called op) (hr : s.resolved = none) :
    ∃ d, run move c [.commit t unavailable] = some d ∧
      trace move moveShows c [.commit t unavailable] = [] ∧ d.object = none ∧
      d.status = Function.update c.status t (.done op unavailable) := by
  have unresolved : c.object = none := by rw [hs.object, hr, Option.map_none]
  have performed : (deferredObject k initiallySet).perform c.object t op unavailable = some none := by
    rw [unresolved]
    change (if unavailable = unavailable then some none else none) = some none
    exact if_pos rfl
  obtain ⟨moved, seen⟩ := move_commit ((hs.status t).trans called) performed
  exact ⟨_, moved, seen, rfl, rfl⟩

theorem silent {a : DeferredSignal.Action Thread} (hs : Matches initiallySet s c)
    (unseen : signalShows s a = []) (object : s'.resolved.map s'.objects = s.resolved.map s.objects)
    (status : ∀ u, c.status u = callStatus (s'.pc u)) : Follows s s' a c :=
  ⟨[], c, rfl, unseen.symm, hs.object.trans object.symm, status⟩

theorem follows_publish (hs : Matches initiallySet s c) {t : Thread} {op : SignalOp} {n : ℕ}
    (hpc : s.pc t = .storeResolved op n) :
    Follows s (State.call { s with resolved := some n } t (.unlock ()) (.unlockMutex op (some n)))
      (.advance t) c := by
  obtain ⟨hr, hsignal⟩ := hs.invariant.2.1.knows_at hpc
  obtain ⟨p, _, fresh⟩ := hs.invariant.2.1.served n hsignal
  rw [hs.invariant.2.1.untouched hr, hs.invariant.2.2] at fresh
  have made : k.create p initiallySet = s.objects n := Option.some.inj fresh
  have unresolved : c.object = none := by rw [hs.object, hr, Option.map_none]
  have changed : (deferredObject k initiallySet).internal c.object p = some (some (s.objects n)) := by
    rw [unresolved, ← made]
    rfl
  obtain ⟨moved, seen⟩ := move_internal changed
  refine ⟨_, _, moved, ?_, rfl, ?_⟩
  · rw [seen, signalShows, hpc]
  · exact status_kept hs.status (by rw [hpc]; rfl)

theorem follows_interrupt (hs : Matches initiallySet s c) {t : Thread}
    (hpc : s.pc t = .loadForInterrupt) :
    Follows s (s.goto t (afterResolve .giveFromInterrupt s.resolved)) (.advance t) c := by
  have unseen : signalShows s (.advance t) = [] := by rw [signalShows, hpc]
  cases hr : s.resolved with
  | some n => exact silent hs unseen rfl (status_kept hs.status (by rw [hpc]; rfl))
  | none =>
    obtain ⟨d, moved, seen, object, status⟩ := refuse hs (by rw [hpc]; rfl) hr
    refine ⟨_, d, moved, seen.trans unseen.symm, ?_, ?_⟩
    · rw [object]
      exact (congrArg (Option.map s.objects) hr).symm
    · rw [status]
      exact status_goto hs.status t (.returnUnavailable .giveFromInterrupt)

/-- Both ways in which a thread finds, under the mutex, that there is no signal yet. -/
theorem follows_unavailable (hs : Matches initiallySet s c) {t : Thread} {op : SignalOp}
    {a : DeferredSignal.Action Thread} (called : callStatus (s.pc t) = .called op)
    (unseen : signalShows s a = []) (hr : s.resolved = none) (hr' : s'.resolved = none)
    (hpc' : s'.pc = Function.update s.pc t (.unlockMutex op none)) : Follows s s' a c := by
  obtain ⟨d, moved, seen, object, status⟩ := refuse hs called hr
  refine ⟨_, d, moved, seen.trans unseen.symm, ?_, ?_⟩
  · rw [object, hr', Option.map_none]
  · rw [status, hpc']
    exact status_goto hs.status t (.unlockMutex op none)

theorem follows_inner (hs : Matches initiallySet s c) (a : LazyLock.Action (Locks.mutex Thread))
    (m : Lock (Locks.mutex Thread)) :
    Follows s (s.afterStep (Locks.actor a) m) (.mutexStep a) c := by
  unfold State.afterStep
  split
  · refine silent hs rfl rfl (status_kept hs.status ?_)
    cases hpc : s.pc (Locks.actor a) with
    | unlockMutex op resolved => cases resolved <;> rfl
    | _ => rfl
  · exact silent hs rfl rfl hs.status

theorem follows_performed (hs : Matches initiallySet s c) {t : Thread} {op : SignalOp} {n : ℕ}
    {ret : PlatformResult} {after : k.State} (hpc : s.pc t = .callSignal op n)
    (h : k.perform (s.objects n) t op ret = some after) :
    Follows s { s.goto t .idle with
      objects := Function.update s.objects n after
      history := s.history ++ [⟨t, op, some n, ret⟩] } (.perform t ret) c := by
  have hr : s.resolved = some n := hs.invariant.2.1.knows_at hpc
  have here : c.object = some (s.objects n) := by rw [hs.object, hr, Option.map_some]
  have performed : (deferredObject k initiallySet).perform c.object t op ret = some (some after) := by
    rw [here]
    exact congrArg (Option.map some) h
  obtain ⟨moved, seen⟩ := move_complete ((hs.status t).trans (by rw [hpc]; rfl)) performed
  refine ⟨_, _, moved, ?_, ?_, status_goto hs.status t .idle⟩
  · rw [seen, signalShows, hpc]
  · change some after = s.resolved.map (Function.update s.objects n after)
    rw [hr, Option.map_some, Function.update_self]

theorem follows_step {a : DeferredSignal.Action Thread} (hs : Matches initiallySet s c)
    (h : Step s a s') : Follows s s' a c := by
  cases h with
  | change _ => exact silent hs rfl rfl hs.status
  | @invoke t op hpc =>
    obtain ⟨moved, seen⟩ := move_invoke ((hs.status t).trans (by rw [hpc]; rfl)) op
    refine ⟨_, _, moved, seen, hs.object, ?_⟩
    rw [← status_entry op]
    exact status_goto hs.status t (entry op)
  | fastPath hpc _ | lock hpc _ | alreadyResolved hpc _ _ | unresolved hpc _ | provided hpc _ =>
    exact silent hs (by rw [signalShows, hpc]) rfl (status_kept hs.status (by rw [hpc]; rfl))
  | unprovided hpc _ _ =>
    have hr : s.resolved = none := hs.invariant.2.1.knows_at hpc
    exact follows_unavailable hs (by rw [hpc]; rfl) (by rw [signalShows, hpc]) hr hr rfl
  | publish hpc _ => exact follows_publish hs hpc
  | interrupt hpc => exact follows_interrupt hs hpc
  | @refused t op hpc =>
    obtain ⟨moved, seen⟩ := move_leave ((hs.status t).trans (by rw [hpc]; rfl))
    refine ⟨_, _, moved, ?_, hs.object, status_goto hs.status t .idle⟩
    rw [seen, signalShows, hpc]
  | inner _ _ => exact follows_inner hs _ _
  | created hpc _ =>
    have hr : s.resolved = none := hs.invariant.2.1.knows_at hpc
    refine silent hs rfl ?_ (status_kept hs.status (by rw [hpc]; rfl))
    change s.resolved.map _ = s.resolved.map _
    rw [hr, Option.map_none, Option.map_none]
  | createdNull hpc _ =>
    have hr : s.resolved = none := hs.invariant.2.1.knows_at hpc
    exact follows_unavailable hs (by rw [hpc]; rfl) rfl hr hr rfl
  | performed hpc h => exact follows_performed hs hpc h

theorem matches_step (s : State k) (a : DeferredSignal.Action Thread) (s' : State k)
    (c : Configuration (deferredObject k initiallySet)) (hs : Matches initiallySet s c)
    (h : next s a = some s') :
    ∃ moves d, run move c moves = some d ∧
      trace move moveShows c moves = signalShows s a ∧ Matches initiallySet s' d := by
  obtain ⟨moves, d, moved, seen, object, status⟩ := follows_step hs (step_cases h)
  exact ⟨moves, d, moved, seen, invariant_step s a s' hs.invariant h, object, status⟩

theorem matches_initial (k : SignalKind Thread) (storage : ProviderStorage) (initiallySet : Bool) :
    Matches initiallySet (initial k storage initiallySet) (.initial (deferredObject k initiallySet)) :=
  ⟨initial_invariant storage initiallySet, rfl, fun _ => rfl⟩

/-- Every execution with threads, interrupts and provider changes looks like one in which all
calls are refused up to some moment, and from then on served by one atomic signal. -/
theorem deferred_signal_linearizable (k : SignalKind Thread) (storage : ProviderStorage)
    (initiallySet : Bool) {as : List (DeferredSignal.Action Thread)} {s : State k}
    (h : run next (initial k storage initiallySet) as = some s) :
    Linearizable (deferredObject k initiallySet)
      (trace next signalShows (initial k storage initiallySet) as) :=
  linearizable_of_simulation matches_step (matches_initial k storage initiallySet) h

theorem deferred_signal_linearizable_interrupted :
    ∃ s, run next (initial flagSignal (some 7) false) interrupted = some s ∧
      Linearizable (deferredObject flagSignal false)
        (trace next signalShows (initial flagSignal (some 7) false) interrupted) := by
  have completes : (run next (initial flagSignal (some 7) false) interrupted).isSome := by
    decide +kernel
  obtain ⟨s, hs⟩ := Option.isSome_iff_exists.mp completes
  exact ⟨s, hs, deferred_signal_linearizable flagSignal (some 7) false hs⟩

end

end ESPressioSystem.DeferredSignalRefinement
