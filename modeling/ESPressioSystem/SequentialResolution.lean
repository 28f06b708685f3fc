import Mathlib.Logic.Function.Basic
import ESPressioSystem.Signal

set_option autoImplicit false

/-!
# The lazily resolving primitives, one call after the other
-/
namespace ESPressioSystem.SequentialResolution
open SynchronizationProvider Platform Signal

/-- A call returns, ends the program at the edge of a `noexcept` function, or never returns. -/
inductive Ending (α : Type) where
  | returned (value : α)
  | terminated
  | blocked

def Ending.bind {α β : Type} (e : Ending α) (f : α → Ending β) : Ending β :=
  match e with
  | .returned value => f value
  | .terminated => .terminated
  | .blocked => .blocked

@[simp] theorem returned_bind {α β : Type} (value : α) (f : α → Ending β) :
    (Ending.returned value).bind f = f value := rfl

inductive Target where
  | fallback
  | owned
  deriving DecidableEq, Repr

structure LockState where
  owned : Bool
  resolved : Option Target
  resolutionGuard : Bool
  deriving DecidableEq

def LockState.initial : LockState := ⟨false, none, false⟩

structure LockResolution where
  lock : LockState
  target : Target
  factoryCalls : List FactoryCall

/-- The `try` block of `Resolve`. -/
def createOwned (factory : Factory) (storage : ProviderStorage) (outcome : ProviderId → Outcome)
    (l : LockState) : LockState × List FactoryCall :=
  match provider storage with
  | none => (l, [])
  | some p =>
    match outcome p with
    | .object => ({ l with owned := true }, [⟨p, factory⟩])
    | .null => ({ l with owned := false }, [⟨p, factory⟩])
    | .exception => (l, [⟨p, factory⟩])

/-- `Resolve`, of which the three classes have one copy each; `outcome` says how a call of the
factory would end now. A guard that is set would be waited for without end. -/
def resolve (factory : Factory) (storage : ProviderStorage) (outcome : ProviderId → Outcome)
    (l : LockState) : Ending LockResolution :=
  match l.resolved with
  | some target => .returned ⟨l, target, []⟩
  | none =>
    if l.resolutionGuard then .blocked
    else
      let r := createOwned factory storage outcome { l with resolutionGuard := true }
      let target := if r.1.owned then .owned else .fallback
      .returned ⟨{ r.1 with resolved := some target, resolutionGuard := false }, target, r.2⟩

def mutexResolve := resolve .createMutex
def recursiveMutexResolve := resolve .createRecursiveMutex
def readWriteLockResolve := resolve .createReadWriteLock

/-- The factory is called now and throws. -/
def factoryThrows (storage : ProviderStorage) (outcome : ProviderId → Outcome) (l : LockState) : Bool :=
  l.resolved.isNone && (provider storage).any fun p => outcome p == .exception

/-- A `Mutex`, with the primitive that is held. -/
structure MutexState where
  lock : LockState
  held : Target → Bool

def MutexState.initial : MutexState := ⟨.initial, fun _ => false⟩

def mutexLock (storage : ProviderStorage) (outcome : ProviderId → Outcome) (m : MutexState) :
    Ending (MutexState × List FactoryCall) :=
  (mutexResolve storage outcome m.lock).bind fun r =>
    if m.held r.target then .blocked
    else .returned (⟨r.lock, Function.update m.held r.target true⟩, r.factoryCalls)

def mutexUnlock (storage : ProviderStorage) (outcome : ProviderId → Outcome) (m : MutexState) :
    Ending (MutexState × List FactoryCall) :=
  (mutexResolve storage outcome m.lock).bind fun r =>
    .returned (⟨r.lock, Function.update m.held r.target false⟩, r.factoryCalls)

section
variable {σ : Type}

inductive Made (σ : Type) where
  | object (signal : σ)
  | null
  | exception

structure Factories (σ : Type) where
  createBinarySignal : ProviderId → Bool → Made σ
  createMutex : ProviderId → Outcome
  createRecursiveMutex : ProviderId → Outcome
  createReadWriteLock : ProviderId → Outcome

/-- `_resolved` is null or points to what `_signal` owns. -/
structure Deferred (σ : Type) where
  initiallySet : Bool
  signal : Option σ
  resolved : Bool
  mutex : MutexState

def Deferred.initial (initiallySet : Bool) : Deferred σ := ⟨initiallySet, none, false, .initial⟩

/-- The destructor of the `lock_guard`, after the factory calls made so far. -/
def leaveResolve (storage : ProviderStorage) (f : Factories σ) (d : Deferred σ)
    (calls : List FactoryCall) : Ending (Deferred σ × List FactoryCall) :=
  (mutexUnlock storage f.createMutex d.mutex).bind fun m =>
    .returned ({ d with mutex := m.1 }, calls ++ m.2)

/-- `Resolve` of the signal. The second look at `_resolved` finds what the first one found,
and nothing catches what the factory throws. -/
def resolveSignal (storage : ProviderStorage) (f : Factories σ) (d : Deferred σ) :
    Ending (Deferred σ × List FactoryCall) :=
  if d.resolved then .returned (d, [])
  else
    (mutexLock storage f.createMutex d.mutex).bind fun m =>
      let d := { d with mutex := m.1 }
      match provider storage with
      | none => leaveResolve storage f d m.2
      | some p =>
        let calls := m.2 ++ [⟨p, .createBinarySignal d.initiallySet⟩]
        match f.createBinarySignal p d.initiallySet with
        | .object x => leaveResolve storage f { d with signal := some x, resolved := true } calls
        | .null => leaveResolve storage f { d with signal := none } calls
        | .exception => .terminated

structure Completed where
  op : SignalOp
  result : PlatformResult
  factoryCalls : List FactoryCall

abbrev Behaviour (σ : Type) := σ → SignalOp → σ × PlatformResult

/-- `signal != nullptr ? signal->op() : Failed(Unavailable)` -/
def applyResolved (behaves : Behaviour σ) (d : Deferred σ) (op : SignalOp) (calls : List FactoryCall) :
    Deferred σ × Completed :=
  match d.resolved, d.signal with
  | true, some x => ({ d with signal := some (behaves x op).1 }, ⟨op, (behaves x op).2, calls⟩)
  | _, _ => (d, ⟨op, unavailable, calls⟩)

def resolveAndApply (behaves : Behaviour σ) (op : SignalOp) (storage : ProviderStorage)
    (f : Factories σ) (d : Deferred σ) : Ending (Deferred σ × Completed) :=
  (resolveSignal storage f d).bind fun r => .returned (applyResolved behaves r.1 op r.2)

def give (behaves : Behaviour σ) := resolveAndApply behaves .give
def wait (behaves : Behaviour σ) (timeoutMilliseconds : UInt32) :=
  resolveAndApply behaves (.wait timeoutMilliseconds)
def reset (behaves : Behaviour σ) := resolveAndApply behaves .reset

def giveFromInterrupt (behaves : Behaviour σ) (_ : ProviderStorage) (_ : Factories σ)
    (d : Deferred σ) : Ending (Deferred σ × Completed) :=
  .returned (applyResolved behaves d .giveFromInterrupt [])

def operate (behaves : Behaviour σ) : SignalOp → ProviderStorage → Factories σ → Deferred σ →
    Ending (Deferred σ × Completed)
  | .give => give behaves
  | .giveFromInterrupt => giveFromInterrupt behaves
  | .wait timeout => wait behaves timeout
  | .reset => reset behaves

/-- What `CreateBinarySignal` returns. -/
inductive Created (σ : Type) where
  | provided (signal : σ)
  | deferred (d : Deferred σ)
  | exception

def createBinarySignal (storage : ProviderStorage) (f : Factories σ) (initiallySet : Bool) :
    Created σ :=
  match provider storage with
  | none => .deferred (.initial initiallySet)
  | some p =>
    match f.createBinarySignal p initiallySet with
    | .object x => .provided x
    | .null => .deferred (.initial initiallySet)
    | .exception => .exception

end

structure MutexState.Idle (m : MutexState) : Prop where
  guardClear : m.lock.resolutionGuard = false
  free : ∀ t, m.held t = false

theorem initial_idle : MutexState.initial.Idle := ⟨rfl, fun _ => rfl⟩

theorem resolve_returned (factory : Factory) (storage : ProviderStorage)
    (outcome : ProviderId → Outcome) {l : LockState} (h : l.resolutionGuard = false) :
    ∃ r, resolve factory storage outcome l = .returned r ∧ r.lock.resolutionGuard = false ∧
      r.lock.resolved = some r.target := by
  unfold resolve
  cases hr : l.resolved with
  | some target => exact ⟨_, rfl, h, hr⟩
  | none =>
    rw [if_neg (by rw [h]; decide)]
    exact ⟨_, rfl, rfl, rfl⟩

theorem resolve_unresolved (factory : Factory) (storage : ProviderStorage)
    (outcome : ProviderId → Outcome) {l : LockState} (hr : l.resolved = none)
    (h : l.resolutionGuard = false) {r : LockState × List FactoryCall} {target : Target}
    (tried : createOwned factory storage outcome { l with resolutionGuard := true } = r)
    (chosen : (if r.1.owned then .owned else .fallback) = target) :
    resolve factory storage outcome l =
      .returned ⟨{ r.1 with resolved := some target, resolutionGuard := false }, target, r.2⟩ := by
  subst tried chosen
  simp only [resolve, hr, h, Bool.false_eq_true, if_false]

theorem resolve_resolved (factory : Factory) (storage : ProviderStorage)
    (outcome : ProviderId → Outcome) {l : LockState} {target : Target}
    (h : l.resolved = some target) :
    resolve factory storage outcome l = .returned ⟨l, target, []⟩ := by
  simp only [resolve, h]

theorem mutex_section (storage : ProviderStorage) (outcome : ProviderId → Outcome) {m : MutexState}
    (h : m.Idle) :
    ∃ inside after calls, mutexLock storage outcome m = .returned (inside, calls) ∧
      mutexUnlock storage outcome inside = .returned (after, []) ∧ after.Idle := by
  obtain ⟨r, hr, hguard, hresolved⟩ := resolve_returned .createMutex storage outcome h.guardClear
  refine ⟨⟨r.lock, Function.update m.held r.target true⟩,
    ⟨r.lock, Function.update (Function.update m.held r.target true) r.target false⟩,
    r.factoryCalls, ?_, ?_, ?_⟩
  · simp only [mutexLock, mutexResolve, hr, returned_bind, h.free, Bool.false_eq_true, if_false]
  · simp only [mutexUnlock, mutexResolve, resolve_resolved _ _ _ hresolved, returned_bind]
  · refine ⟨hguard, ?_⟩
    rw [Function.update_idem]
    exact (Function.forall_update_iff m.held fun _ b => b = false).mpr ⟨rfl, fun t _ => h.free t⟩

section
variable {σ : Type}

/-- The signal is resolved to `_signal`, or not, and its mutex is free. -/
structure Deferred.Sound (d : Deferred σ) : Prop where
  idle : d.mutex.Idle
  owned : d.resolved = true → ∃ x, d.signal = some x

theorem deferred_initial_sound (initiallySet : Bool) : (Deferred.initial initiallySet : Deferred σ).Sound :=
  ⟨initial_idle, nofun⟩

/-- The signal that a call of `Resolve` would get from the factory now. -/
def offered (storage : ProviderStorage) (f : Factories σ) (initiallySet : Bool) : Option (Made σ) :=
  (provider storage).map fun p => f.createBinarySignal p initiallySet

theorem leaveResolve_returned {storage : ProviderStorage} {f : Factories σ} {d : Deferred σ}
    {after : MutexState} (h : mutexUnlock storage f.createMutex d.mutex = .returned (after, []))
    (calls : List FactoryCall) :
    leaveResolve storage f d calls = .returned ({ d with mutex := after }, calls) := by
  simp only [leaveResolve, h, returned_bind, List.append_nil]

theorem resolveSignal_none {storage : ProviderStorage} {f : Factories σ} {d : Deferred σ}
    (hd : d.Sound) (hr : d.resolved = false) (h : offered storage f d.initiallySet = none) :
    ∃ m calls, m.Idle ∧
      resolveSignal storage f d = .returned ({ d with mutex := m }, calls) := by
  obtain ⟨inside, after, calls, hlock, hunlock, idle⟩ := mutex_section storage f.createMutex hd.idle
  refine ⟨after, calls, idle, ?_⟩
  have hp : provider storage = none := Option.map_eq_none_iff.mp h
  simp only [resolveSignal, hr, Bool.false_eq_true, if_false, hlock, returned_bind, hp]
  exact leaveResolve_returned (d := ⟨_, _, _, inside⟩) hunlock calls

theorem resolveSignal_null {storage : ProviderStorage} {f : Factories σ} {d : Deferred σ}
    (hd : d.Sound) (hr : d.resolved = false) (h : offered storage f d.initiallySet = some .null) :
    ∃ m calls, m.Idle ∧
      resolveSignal storage f d = .returned ({ d with mutex := m, signal := none }, calls) := by
  obtain ⟨inside, after, calls, hlock, hunlock, idle⟩ := mutex_section storage f.createMutex hd.idle
  obtain ⟨p, hp, hmade⟩ := Option.map_eq_some_iff.mp h
  refine ⟨after, calls ++ [⟨p, .createBinarySignal d.initiallySet⟩], idle, ?_⟩
  simp only [resolveSignal, hr, Bool.false_eq_true, if_false, hlock, returned_bind, hp, hmade]
  exact leaveResolve_returned (d := ⟨_, _, _, inside⟩) hunlock _

theorem resolveSignal_object {storage : ProviderStorage} {f : Factories σ} {d : Deferred σ} {x : σ}
    (hd : d.Sound) (hr : d.resolved = false)
    (h : offered storage f d.initiallySet = some (.object x)) :
    ∃ m calls, m.Idle ∧ resolveSignal storage f d =
      .returned ({ d with mutex := m, signal := some x, resolved := true }, calls) := by
  obtain ⟨inside, after, calls, hlock, hunlock, idle⟩ := mutex_section storage f.createMutex hd.idle
  obtain ⟨p, hp, hmade⟩ := Option.map_eq_some_iff.mp h
  refine ⟨after, calls ++ [⟨p, .createBinarySignal d.initiallySet⟩], idle, ?_⟩
  simp only [resolveSignal, hr, Bool.false_eq_true, if_false, hlock, returned_bind, hp, hmade]
  exact leaveResolve_returned (d := ⟨_, _, _, inside⟩) hunlock _

theorem resolveSignal_exception {storage : ProviderStorage} {f : Factories σ} {d : Deferred σ}
    (hd : d.Sound) (hr : d.resolved = false)
    (h : offered storage f d.initiallySet = some .exception) :
    resolveSignal storage f d = .terminated := by
  obtain ⟨inside, after, calls, hlock, hunlock, idle⟩ := mutex_section storage f.createMutex hd.idle
  obtain ⟨p, hp, hmade⟩ := Option.map_eq_some_iff.mp h
  simp only [resolveSignal, hr, Bool.false_eq_true, if_false, hlock, returned_bind, hp, hmade]

theorem resolveSignal_resolved {d : Deferred σ} (hr : d.resolved = true) (storage : ProviderStorage)
    (f : Factories σ) : resolveSignal storage f d = .returned (d, []) :=
  if_pos hr

theorem applyResolved_unresolved {d : Deferred σ} (hr : d.resolved = false) (behaves : Behaviour σ)
    (op : SignalOp) (calls : List FactoryCall) :
    applyResolved behaves d op calls = (d, ⟨op, unavailable, calls⟩) := by
  simp only [applyResolved, hr]

theorem applyResolved_resolved {d : Deferred σ} {x : σ} (hr : d.resolved = true)
    (hx : d.signal = some x) (behaves : Behaviour σ) (op : SignalOp) (calls : List FactoryCall) :
    applyResolved behaves d op calls =
      ({ d with signal := some (behaves x op).1 }, ⟨op, (behaves x op).2, calls⟩) := by
  simp only [applyResolved, hr, hx]

theorem operate_normal {op : SignalOp} (h : op ≠ .giveFromInterrupt) (behaves : Behaviour σ) :
    operate behaves op = resolveAndApply behaves op := by
  cases op with
  | giveFromInterrupt => exact absurd rfl h
  | give | wait _ | reset => rfl

theorem applyResolved_sound {d : Deferred σ} (hd : d.Sound) (behaves : Behaviour σ) (op : SignalOp)
    (calls : List FactoryCall) : (applyResolved behaves d op calls).1.Sound := by
  cases hr : d.resolved with
  | false => rwa [applyResolved_unresolved hr]
  | true =>
    obtain ⟨x, hx⟩ := hd.owned hr
    rw [applyResolved_resolved hr hx]
    exact ⟨hd.idle, fun _ => ⟨_, rfl⟩⟩

theorem resolveSignal_returned {storage : ProviderStorage} {f : Factories σ} {d : Deferred σ}
    (hd : d.Sound)
    (quiet : d.resolved = false → offered storage f d.initiallySet ≠ some .exception) :
    ∃ r, resolveSignal storage f d = .returned r ∧ r.1.Sound := by
  cases hr : d.resolved with
  | true => exact ⟨_, resolveSignal_resolved hr storage f, hd⟩
  | false =>
    cases ho : offered storage f d.initiallySet with
    | none =>
      obtain ⟨m, calls, idle, resolved⟩ := resolveSignal_none hd hr ho
      exact ⟨_, resolved, idle, hd.owned⟩
    | some made =>
      cases made with
      | object x =>
        obtain ⟨m, calls, idle, resolved⟩ := resolveSignal_object hd hr ho
        exact ⟨_, resolved, idle, fun _ => ⟨x, rfl⟩⟩
      | null =>
        obtain ⟨m, calls, idle, resolved⟩ := resolveSignal_null hd hr ho
        refine ⟨_, resolved, idle, fun hrt => ?_⟩
        cases hr.symm.trans hrt
      | exception => exact absurd ho (quiet hr)

end

end ESPressioSystem.SequentialResolution
