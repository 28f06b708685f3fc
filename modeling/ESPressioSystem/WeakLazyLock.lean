import ESPressioSystem.Locks
import ESPressioSystem.ProviderPublication

set_option autoImplicit false

/-!
# The resolution protocol with the memory orders of its accesses

The program points and the actions are those of the sequentially consistent protocol. A step that
accesses an atomic variable also says at which place of its modification order, and every access
of an object that is not atomic is recorded.
-/
namespace ESPressioSystem.WeakLazyLock
open Transition SharedObject SynchronizationProvider LazyLock ReleaseAcquire

/-- Which calls of a primitive take over what earlier ones have handed on, and which hand on what
their thread knows. -/
structure Handover {Thread : Type} (p : Primitive Thread) where
  acquires : p.Op → p.Ret → Bool
  releases : p.Op → p.Ret → Bool

section
variable {Thread : Type} [DecidableEq Thread] {Mode : Type} [DecidableEq Mode]

/-- A release synchronizes with the acquisitions that follow it, and a failed attempt with nothing. -/
def lockHandover (admits : Multiset (Thread × Mode) → Thread × Mode → Bool) :
    Handover (lockPrimitive admits) where
  acquires
    | .lock _, true | .tryLock _, true => true
    | _, _ => false
  releases
    | .unlock _, true => true
    | _, _ => false

end

section
variable {Thread : Type} [DecidableEq Thread]

/-- Each object with the event of its construction, and with what the calls of it have handed on. -/
structure WeakLock (k : Kind Thread) where
  owned : Option ℕ
  ownedAccesses : Plain
  resolved : Atomic (Option Pointer)
  resolutionGuard : Atomic Bool
  objects : Pointer → k.primitive.State
  made : Pointer → Option ℕ
  released : Pointer → View
  factoryCalls : List FactoryCall
  pc : Thread → Pc k.primitive.Op
  history : k.primitive.History

variable {k : Kind Thread}

/-- The lock is constructed before any thread uses it, and its fallback with it. -/
def initial (k : Kind Thread) : WeakLock k where
  owned := none
  ownedAccesses := .untouched
  resolved := initialised 0 none
  resolutionGuard := initialised 0 false
  objects := fun _ => k.primitive.init
  made
    | .fallback => some 0
    | .created _ => none
  released := fun _ => ∅
  factoryCalls := []
  pc := fun _ => .idle
  history := []

def WeakLock.goto (s : WeakLock k) (t : Thread) (c : Pc k.primitive.Op) : WeakLock k :=
  { s with pc := Function.update s.pc t c }

def afterLoad {Op : Type} (op : Op) : Option Pointer → Pc Op
  | some resolved => .callPrimitive op resolved
  | none => .testAndSet op

def afterTest {Op : Type} (op : Op) : Bool → Pc Op
  | true => .testAndSet op
  | false => .reloadResolved op

def afterReload {Op : Type} (op : Op) : Option Pointer → Pc Op
  | some resolved => .clearGuard op resolved
  | none => .loadProvider op

def afterProvider {Op : Type} (op : Op) : Option ProviderId → Pc Op
  | some p => .callFactory op p
  | none => .selectPrimitive op

def invoke (s : WeakLock k) (t : Thread) (op : k.primitive.Op) : Option (View × WeakLock k) :=
  match s.pc t with
  | .idle => some (∅, s.goto t (.loadResolved op))
  | _ => none

/-- What the thread learns, and the lock after the step. The first load of `_resolved`, the load of
the provider and `test_and_set` are `memory_order_acquire`, the load under the guard is
`memory_order_relaxed`, and both stores are `memory_order_release`. -/
def advance (storage : Atomic ProviderStorage) (event : ℕ) (view : View) (s : WeakLock k)
    (t : Thread) (i : ℕ) : Option (View × WeakLock k) :=
  match s.pc t with
  | .loadResolved op =>
    (load s.resolved view i).map fun m => (m.known, s.goto t (afterLoad op m.value))
  | .testAndSet op =>
    (exchange s.resolutionGuard view i event true ∅).map fun (m, flag) =>
      (m.known, { s.goto t (afterTest op m.value) with resolutionGuard := flag })
  | .reloadResolved op =>
    (load s.resolved view i).map fun m => ({m.event}, s.goto t (afterReload op m.value))
  | .loadProvider op =>
    (load storage view i).map fun m => (m.known, s.goto t (afterProvider op (provider m.value)))
  | .selectPrimitive op =>
    some (∅, { s.goto t (.storeResolved op (selected s.owned)) with
      ownedAccesses := s.ownedAccesses.read event })
  | .storeResolved op resolved =>
    (store s.resolved view i ⟨event, some resolved, view, false⟩).map fun x =>
      (∅, { s.goto t (.clearGuard op resolved) with resolved := x })
  | .clearGuard op resolved =>
    (store s.resolutionGuard view i ⟨event, false, view, false⟩).map fun x =>
      (∅, { s.goto t (.callPrimitive op resolved) with resolutionGuard := x })
  | .idle | .callFactory _ _ | .callPrimitive _ _ => none

def create (event : ℕ) (s : WeakLock k) (t : Thread) (outcome : Outcome) :
    Option (View × WeakLock k) :=
  match s.pc t with
  | .callFactory op p =>
    let s := { s.goto t (.selectPrimitive op) with factoryCalls := s.factoryCalls ++ [⟨p, k.factory⟩] }
    match outcome with
    | .object =>
      let n := s.factoryCalls.length
      some (∅, { s with
        owned := some n
        ownedAccesses := s.ownedAccesses.write event
        objects := Function.update s.objects (.created n) k.primitive.init
        made := Function.update s.made (.created n) (some event) })
    | .null => some (∅, { s with owned := none, ownedAccesses := s.ownedAccesses.write event })
    | .exception => some (∅, s)
  | _ => none

def perform (sync : Handover k.primitive) (event : ℕ) (view : View) (s : WeakLock k) (t : Thread)
    (ret : k.primitive.Ret) : Option (View × WeakLock k) :=
  match s.pc t with
  | .callPrimitive op resolved =>
    (k.primitive.perform (s.objects resolved) t op ret).map fun after =>
      (if sync.acquires op ret then s.released resolved else ∅,
        { s.goto t .idle with
          objects := Function.update s.objects resolved after
          released := if sync.releases op ret then
            Function.update s.released resolved (s.released resolved ∪ insert event view)
            else s.released
          history := s.history ++ [⟨t, op, ret⟩] })
  | _ => none

def step (sync : Handover k.primitive) (storage : Atomic ProviderStorage) (event : ℕ) (view : View)
    (s : WeakLock k) (a : Action k) (i : ℕ) : Option (View × WeakLock k) :=
  match a with
  | .invoke t op => invoke s t op
  | .advance t => advance storage event view s t i
  | .create t outcome => create event s t outcome
  | .perform t ret => perform sync event view s t ret

def WeakLock.newest (s : WeakLock k) : Lock k where
  owned := s.owned
  resolved := ReleaseAcquire.newest s.resolved none
  resolutionGuard := ReleaseAcquire.newest s.resolutionGuard false
  objects := s.objects
  factoryCalls := s.factoryCalls
  pc := s.pc
  history := s.history

end

end ESPressioSystem.WeakLazyLock
