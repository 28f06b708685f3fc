import ESPressioSystem.SynchronizationProvider

set_option autoImplicit false

/-!
# The resolution protocol of `Mutex`, `RecursiveMutex` and `ReadWriteLock`

The three classes repeat one body; they differ in the primitive and in the factory that
is asked for it. Every atomic access of `Resolve` is a step of its own, and so is the call
of the resolved primitive that follows it.
-/
namespace ESPressioSystem.LazyLock
open Transition Ledger SharedObject SynchronizationProvider

structure Kind (Thread : Type) where
  primitive : Primitive Thread
  factory : Factory

/-- `&_fallback`, or the object returned by the `n`-th call of the factory -/
inductive Pointer where
  | fallback
  | created (n : ℕ)
  deriving DecidableEq, Repr

/-- The steps from `testAndSet` to `clearGuard` are those of `ResolutionGuard`; at `callPrimitive`
`Resolve` has returned. -/
inductive Pc (Op : Type) where
  | idle
  | loadResolved (op : Op)
  | testAndSet (op : Op)
  | reloadResolved (op : Op)
  | loadProvider (op : Op)
  | callFactory (op : Op) (provider : ProviderId)
  | selectPrimitive (op : Op)
  | storeResolved (op : Op) (resolved : Pointer)
  | clearGuard (op : Op) (resolved : Pointer)
  | callPrimitive (op : Op) (resolved : Pointer)

section
variable {Thread : Type} [DecidableEq Thread]

structure Lock (k : Kind Thread) where
  owned : Option ℕ
  resolved : Option Pointer
  resolutionGuard : Bool
  objects : Pointer → k.primitive.State
  factoryCalls : List FactoryCall
  pc : Thread → Pc k.primitive.Op
  history : k.primitive.History

variable {k : Kind Thread}

def initial (k : Kind Thread) : Lock k where
  owned := none
  resolved := none
  resolutionGuard := false
  objects := fun _ => k.primitive.init
  factoryCalls := []
  pc := fun _ => .idle
  history := []

inductive Action (k : Kind Thread) where
  | invoke (t : Thread) (op : k.primitive.Op)
  | advance (t : Thread)
  | create (t : Thread) (outcome : Outcome)
  | perform (t : Thread) (ret : k.primitive.Ret)

def Lock.goto (s : Lock k) (t : Thread) (c : Pc k.primitive.Op) : Lock k :=
  { s with pc := Function.update s.pc t c }

/-- `_owned ? _owned.get() : &_fallback` -/
def selected (owned : Option ℕ) : Pointer :=
  match owned with
  | some n => .created n
  | none => .fallback

def invoke (s : Lock k) (t : Thread) (op : k.primitive.Op) : Option (Lock k) :=
  match s.pc t with
  | .idle => some (s.goto t (.loadResolved op))
  | _ => none

def advance (storage : ProviderStorage) (s : Lock k) (t : Thread) : Option (Lock k) :=
  match s.pc t with
  | .loadResolved op =>
    match s.resolved with
    | some resolved => some (s.goto t (.callPrimitive op resolved))
    | none => some (s.goto t (.testAndSet op))
  | .testAndSet op =>
    if s.resolutionGuard then some s
    else some { s.goto t (.reloadResolved op) with resolutionGuard := true }
  | .reloadResolved op =>
    match s.resolved with
    | some resolved => some (s.goto t (.clearGuard op resolved))
    | none => some (s.goto t (.loadProvider op))
  | .loadProvider op =>
    match provider storage with
    | some p => some (s.goto t (.callFactory op p))
    | none => some (s.goto t (.selectPrimitive op))
  | .selectPrimitive op => some (s.goto t (.storeResolved op (selected s.owned)))
  | .storeResolved op resolved =>
    some { s.goto t (.clearGuard op resolved) with resolved := some resolved }
  | .clearGuard op resolved =>
    some { s.goto t (.callPrimitive op resolved) with resolutionGuard := false }
  | .idle | .callFactory _ _ | .callPrimitive _ _ => none

/-- `_owned = provider->Create…()` inside the `try`; the handler swallows an exception. -/
def create (s : Lock k) (t : Thread) (outcome : Outcome) : Option (Lock k) :=
  match s.pc t with
  | .callFactory op p =>
    let s := { s.goto t (.selectPrimitive op) with factoryCalls := s.factoryCalls ++ [⟨p, k.factory⟩] }
    match outcome with
    | .object =>
      let n := s.factoryCalls.length
      some { s with
        owned := some n
        objects := Function.update s.objects (.created n) k.primitive.init }
    | .null => some { s with owned := none }
    | .exception => some s
  | _ => none

def perform (s : Lock k) (t : Thread) (ret : k.primitive.Ret) : Option (Lock k) :=
  match s.pc t with
  | .callPrimitive op resolved =>
    (k.primitive.perform (s.objects resolved) t op ret).map fun after =>
      { s.goto t .idle with
        objects := Function.update s.objects resolved after
        history := s.history ++ [⟨t, op, ret⟩] }
  | _ => none

def step (storage : ProviderStorage) (s : Lock k) : Action k → Option (Lock k)
  | .invoke t op => invoke s t op
  | .advance t => advance storage s t
  | .create t outcome => create s t outcome
  | .perform t ret => perform s t ret

def next (s : Lock k) (a : ProviderStorage × Action k) : Option (Lock k) := step a.1 s a.2

end

end ESPressioSystem.LazyLock
