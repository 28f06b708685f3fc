import ESPressioSystem.SharedObject
import ESPressioSystem.SynchronizationProvider

set_option autoImplicit false

/-!
# `ISignal` and what a provider's signals may do
-/
namespace ESPressioSystem.Signal
open Transition SharedObject SynchronizationProvider Platform

inductive SignalOp where
  | give
  | giveFromInterrupt
  | wait (timeoutMilliseconds : UInt32)
  | reset
  deriving DecidableEq, Repr

def waitForever : UInt32 := 0xFFFFFFFF

def unavailable : PlatformResult := failed .unavailable 0

@[simp] theorem unavailable_isSuccess : unavailable.isSuccess = false := rfl

section
variable {Thread : Type}

/-- The signals of all providers; each provider has its own way of making one. -/
structure SignalKind (Thread : Type) where
  State : Type
  create : ProviderId → Bool → State
  perform : State → Thread → SignalOp → PlatformResult → Option State

def SignalKind.primitive (k : SignalKind Thread) (p : ProviderId) (initiallySet : Bool) :
    Primitive Thread where
  State := k.State
  Op := SignalOp
  Ret := PlatformResult
  init := k.create p initiallySet
  perform := k.perform

def semaphoreOp : SignalOp → SemaphoreOp
  | .give | .giveFromInterrupt => .give
  | .wait _ => .take
  | .reset => .reset

def semaphoreCall (c : Call Thread SignalOp PlatformResult) : SemaphoreOp × Bool :=
  (semaphoreOp c.op, c.ret.isSuccess)

/-- `isSet` reads a correct binary signal off the state of the provider's signal. -/
structure Binary (k : SignalKind Thread) (isSet : k.State → Bool) : Prop where
  created : ∀ p initiallySet, isSet (k.create p initiallySet) = initiallySet
  performed : ∀ s t op ret s', k.perform s t op ret = some s' →
    semaphorePerform (isSet s) (semaphoreOp op) ret.isSuccess = some (isSet s')

theorem binary_run {k : SignalKind Thread} {isSet : k.State → Bool} (hk : Binary k isSet)
    {p : ProviderId} {initiallySet : Bool} {s s' : k.State}
    {calls : List (Call Thread SignalOp PlatformResult)}
    (h : run (k.primitive p initiallySet).next s calls = some s') :
    run semaphoreNext (isSet s) (calls.map semaphoreCall) = some (isSet s') :=
  run_map isSet semaphoreCall (fun s c _ hc => hk.performed s c.thread c.op c.ret _ hc) h

theorem binary_waits {k : SignalKind Thread} {isSet : k.State → Bool} (hk : Binary k isSet)
    {p : ProviderId} {initiallySet : Bool} {s : k.State}
    {calls : List (Call Thread SignalOp PlatformResult)}
    (h : run (k.primitive p initiallySet).next (k.create p initiallySet) calls = some s) :
    successes .take (calls.map semaphoreCall) ≤
      initiallySet.toNat + successes .give (calls.map semaphoreCall) := by
  have taken := semaphore_takes (binary_run hk h)
  rw [hk.created] at taken
  omega

end

end ESPressioSystem.Signal
