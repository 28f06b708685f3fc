import ESPressioSystem.Locks
import ESPressioSystem.Signal

set_option autoImplicit false

/-!
# `DeferredBinarySignal` among threads and interrupts

The lazily resolved `Mutex` inside the signal takes its own steps, interleaved with all
others. An interrupt is one more context whose steps may fall anywhere.
-/
namespace ESPressioSystem.DeferredSignal
open Transition SharedObject SynchronizationProvider Platform Signal LazyLock Locks

/-- The steps from `lockMutex` to `unlockMutex` are under the `lock_guard`; at its end `Resolve` has
the value that it returns. -/
inductive Pc where
  | idle
  | loadResolved (op : SignalOp)
  | lockMutex (op : SignalOp)
  | reloadResolved (op : SignalOp)
  | loadProvider (op : SignalOp)
  | callFactory (op : SignalOp) (provider : ProviderId)
  | storeResolved (op : SignalOp) (resolved : ℕ)
  | unlockMutex (op : SignalOp) (resolved : Option ℕ)
  | callSignal (op : SignalOp) (resolved : ℕ)
  | returnUnavailable (op : SignalOp)
  | loadForInterrupt

structure SignalCall (Thread : Type) where
  thread : Thread
  op : SignalOp
  target : Option ℕ
  ret : PlatformResult

section
variable {Thread : Type} [DecidableEq Thread]

/-- The factory call that returned it stands for `_signal`. -/
structure State (k : SignalKind Thread) where
  initiallySet : Bool
  storage : ProviderStorage
  mutex : Lock (mutex Thread)
  signal : Option ℕ
  resolved : Option ℕ
  objects : ℕ → k.State
  factoryCalls : List FactoryCall
  pc : Thread → Pc
  history : List (SignalCall Thread)

variable {k : SignalKind Thread}

def initial (k : SignalKind Thread) (storage : ProviderStorage) (initiallySet : Bool) : State k where
  initiallySet := initiallySet
  storage := storage
  mutex := LazyLock.initial (mutex Thread)
  signal := none
  resolved := none
  objects := fun _ => k.create 0 initiallySet
  factoryCalls := []
  pc := fun _ => .idle
  history := []

inductive Action (Thread : Type) [DecidableEq Thread] where
  | change (c : ProviderChange)
  | invoke (t : Thread) (op : SignalOp)
  | advance (t : Thread)
  | mutexStep (a : LazyLock.Action (mutex Thread))
  | create (t : Thread) (outcome : Outcome)
  | perform (t : Thread) (ret : PlatformResult)

def State.goto (s : State k) (t : Thread) (c : Pc) : State k :=
  { s with pc := Function.update s.pc t c }

def entry : SignalOp → Pc
  | .giveFromInterrupt => .loadForInterrupt
  | op => .loadResolved op

/-- `signal != nullptr ? signal->op() : Failed(Unavailable)` -/
def afterResolve (op : SignalOp) : Option ℕ → Pc
  | some n => .callSignal op n
  | none => .returnUnavailable op

def invoke (s : State k) (t : Thread) (op : SignalOp) : Option (State k) :=
  match s.pc t with
  | .idle => some (s.goto t (entry op))
  | _ => none

def callMutex (s : State k) (t : Thread) (op : LockOp Unit) (c : Pc) : Option (State k) :=
  (LazyLock.invoke s.mutex t op).map fun m => { s.goto t c with mutex := m }

def advance (s : State k) (t : Thread) : Option (State k) :=
  match s.pc t with
  | .loadResolved op =>
    match s.resolved with
    | some n => some (s.goto t (.callSignal op n))
    | none => callMutex s t (.lock ()) (.lockMutex op)
  | .reloadResolved op =>
    match s.resolved with
    | some n => callMutex s t (.unlock ()) (.unlockMutex op (some n))
    | none => some (s.goto t (.loadProvider op))
  | .loadProvider op =>
    match provider s.storage with
    | some p => some (s.goto t (.callFactory op p))
    | none => callMutex s t (.unlock ()) (.unlockMutex op none)
  | .storeResolved op n =>
    callMutex { s with resolved := some n } t (.unlock ()) (.unlockMutex op (some n))
  | .loadForInterrupt => some (s.goto t (afterResolve .giveFromInterrupt s.resolved))
  | .returnUnavailable op =>
    some { s.goto t .idle with history := s.history ++ [⟨t, op, none, unavailable⟩] }
  | .idle | .lockMutex _ | .callFactory _ _ | .unlockMutex _ _ | .callSignal _ _ => none

def afterMutex : Pc → Pc
  | .lockMutex op => .reloadResolved op
  | .unlockMutex op resolved => afterResolve op resolved
  | c => c

def mutexStep (s : State k) (a : LazyLock.Action (mutex Thread)) : Option (State k) :=
  match a with
  | .invoke _ _ => none
  | _ => (LazyLock.step s.storage s.mutex a).map fun m =>
    match m.pc (actor a) with
    | .idle => { s.goto (actor a) (afterMutex (s.pc (actor a))) with mutex := m }
    | _ => { s with mutex := m }

/-- `_signal = provider->CreateBinarySignal(_initiallySet)`. An exception would leave
`Resolve`, which is `noexcept`: the program ends and has no next state. -/
def create (s : State k) (t : Thread) (outcome : Outcome) : Option (State k) :=
  match s.pc t with
  | .callFactory op p =>
    let calls := s.factoryCalls ++ [⟨p, .createBinarySignal s.initiallySet⟩]
    match outcome with
    | .object =>
      some { s.goto t (.storeResolved op calls.length) with
        signal := some calls.length
        objects := Function.update s.objects calls.length (k.create p s.initiallySet)
        factoryCalls := calls }
    | .null =>
      callMutex { s with signal := none, factoryCalls := calls } t (.unlock ()) (.unlockMutex op none)
    | .exception => none
  | _ => none

def perform (s : State k) (t : Thread) (ret : PlatformResult) : Option (State k) :=
  match s.pc t with
  | .callSignal op n =>
    (k.perform (s.objects n) t op ret).map fun after =>
      { s.goto t .idle with
        objects := Function.update s.objects n after
        history := s.history ++ [⟨t, op, some n, ret⟩] }
  | _ => none

def next (s : State k) : Action Thread → Option (State k)
  | .change c => some { s with storage := c.apply s.storage }
  | .invoke t op => invoke s t op
  | .advance t => advance s t
  | .mutexStep a => mutexStep s a
  | .create t outcome => create s t outcome
  | .perform t ret => perform s t ret

end

end ESPressioSystem.DeferredSignal
