import ESPressioSystem.Components
import ESPressioSystem.LazyLockRefinement
import ESPressioSystem.DeferredSignalRefinement

set_option autoImplicit false

/-!
# A process with any number of locks and signals, and one synchronization provider
-/
namespace ESPressioSystem.SynchronizationWorld
open Transition Refinement Components SharedObject SynchronizationProvider Platform Signal
open LazyLock (Kind Lock)
open LazyLockRefinement (ofPrimitive lockShows)
open DeferredSignalRefinement (deferredObject signalShows)

section
variable {Thread : Type} [DecidableEq Thread]

/-- A `Mutex`, a `RecursiveMutex` or a `ReadWriteLock`, or else a `DeferredBinarySignal`. -/
inductive Object (Thread : Type) where
  | lock (k : Kind Thread)
  | signal (k : SignalKind Thread) (initiallySet : Bool)

/-- A signal that reads the provider storage of the process. -/
def signalStep {k : SignalKind Thread} (storage : ProviderStorage) (s : DeferredSignal.State k) :
    DeferredSignal.Action Thread → Option (DeferredSignal.State k)
  | .change _ => none
  | a => DeferredSignal.next { s with storage := storage } a

def Object.component : Object Thread → Component ProviderStorage
  | .lock k => ⟨Lock k, LazyLock.Action k, LazyLock.step⟩
  | .signal k _ => ⟨DeferredSignal.State k, DeferredSignal.Action Thread, signalStep⟩

def Object.initial : (o : Object Thread) → o.component.State
  | .lock k => LazyLock.initial k
  | .signal k initiallySet => DeferredSignal.initial k initialStorage initiallySet

def process {ι : Type} (objects : ι → Object Thread) (storage : ProviderStorage) :
    System fun i => (objects i).component :=
  ⟨storage, fun i => (objects i).initial⟩

abbrev ProcessAction {ι : Type} (objects : ι → Object Thread) :=
  SystemAction ProviderChange fun i => (objects i).component

def processNext {ι : Type} [DecidableEq ι] {objects : ι → Object Thread} :
    System (fun i => (objects i).component) → ProcessAction objects →
      Option (System fun i => (objects i).component) :=
  next ProviderChange.apply

def Object.Op : Object Thread → Type
  | .lock k => k.primitive.Op
  | .signal _ _ => SignalOp

def Object.Ret : Object Thread → Type
  | .lock k => k.primitive.Ret
  | .signal _ _ => PlatformResult

def Object.atomic : (o : Object Thread) → AtomicObject Thread o.Op o.Ret
  | .lock k => ofPrimitive k.primitive
  | .signal k initiallySet => deferredObject k initiallySet

def Object.shows : (o : Object Thread) → ProviderStorage → o.component.State →
    o.component.Action → List (CallEvent Thread o.Op o.Ret)
  | .lock _, storage, l, a => lockShows ⟨storage, l⟩ (.act a)
  | .signal _ _, storage, s, a => signalShows { s with storage := storage } a

def Object.Matches : (o : Object Thread) → ProviderStorage → o.component.State →
    Configuration o.atomic → Prop
  | .lock _, storage, l, c => LazyLockRefinement.Matches ⟨storage, l⟩ c
  | .signal _ initiallySet, storage, s, c =>
    DeferredSignalRefinement.Matches initiallySet { s with storage := storage } c

theorem storage_step {k : SignalKind Thread} {s s' : DeferredSignal.State k}
    {a : DeferredSignal.Action Thread} (h : DeferredSignal.Step s a s')
    (kept : ∀ c, a ≠ .change c) : s'.storage = s.storage := by
  cases h with
  | change c => exact absurd rfl (kept c)
  | inner _ _ =>
    unfold DeferredSignal.State.afterStep
    split <;> rfl
  | _ => rfl

/-- A step of a signal in the process is one of the signal with the storage of the process. -/
theorem signalStep_next {k : SignalKind Thread} {storage : ProviderStorage}
    {s s' : DeferredSignal.State k} {a : DeferredSignal.Action Thread}
    (h : signalStep storage s a = some s') :
    DeferredSignal.next { s with storage := storage } a = some { s' with storage := storage } := by
  have taken : DeferredSignal.next { s with storage := storage } a = some s' := by
    cases a with
    | change c => cases h
    | _ => exact h
  have kept : s'.storage = storage := by
    refine storage_step (DeferredSignal.step_cases taken) fun c hc => ?_
    subst hc
    cases h
  rw [taken, ← kept]

theorem matches_step (o : Object Thread) (storage : ProviderStorage) (p : o.component.State)
    (a : o.component.Action) (p' : o.component.State) (c : Configuration o.atomic)
    (hp : o.Matches storage p c) (h : o.component.step storage p a = some p') :
    ∃ moves d, run move c moves = some d ∧
      trace move moveShows c moves = o.shows storage p a ∧ o.Matches storage p' d := by
  cases o with
  | lock k =>
    have stepped : Locks.worldNext ⟨storage, p⟩ (.act a) = some ⟨storage, p'⟩ :=
      Option.map_eq_some_iff.mpr ⟨p', h, rfl⟩
    exact LazyLockRefinement.matches_step _ _ _ c hp stepped
  | signal k initiallySet =>
    exact DeferredSignalRefinement.matches_step _ _ _ c hp (signalStep_next h)

theorem matches_change (o : Object Thread) (storage : ProviderStorage) (p : o.component.State)
    (c : Configuration o.atomic) (change : ProviderChange) (h : o.Matches storage p c) :
    o.Matches (change.apply storage) p c := by
  cases o with
  | lock k => exact ⟨h.invariant, h.object, h.status⟩
  | signal k initiallySet =>
    obtain ⟨⟨guarded, published, flag⟩, object, status⟩ := h
    have guarded' := DeferredSignal.guarded_step guarded (.change change)
    have published' := DeferredSignal.published_step guarded published (.change change)
    exact ⟨⟨guarded', published', flag⟩, object, status⟩

theorem matches_initial (o : Object Thread) (storage : ProviderStorage) :
    o.Matches storage o.initial (.initial o.atomic) := by
  cases o with
  | lock k => exact LazyLockRefinement.matches_initial k storage
  | signal k initiallySet => exact DeferredSignalRefinement.matches_initial k storage initiallySet

variable {ι : Type} [DecidableEq ι]

/-- All calls of all locks and signals of a process, whatever threads, interrupts, factories and
provider changes do, are those of atomic objects, and take effect in one order. -/
theorem synchronization_jointly_linearizable (objects : ι → Object Thread) (storage : ProviderStorage)
    {as : List (ProcessAction objects)} {s : System fun i => (objects i).component}
    (h : run processNext (process objects storage) as = some s) :
    JointlyLinearizable (fun i => (objects i).atomic)
      (trace processNext (systemShows fun i => (objects i).shows) (process objects storage) as) :=
  jointly_linearizable_of_parts (R := fun i => (objects i).Matches)
    (fun i => matches_step (objects i)) (fun i => matches_change (objects i))
    (fun i => matches_initial (objects i) storage) h

/-- A mutex and a signal. -/
def pair : Bool → Object ℕ
  | false => .lock (Locks.mutex ℕ)
  | true => .signal DeferredSignal.flagSignal false

def onMutex (a : LazyLock.Action (Locks.mutex ℕ)) : ProcessAction pair := .act false a
def onSignal (a : DeferredSignal.Action ℕ) : ProcessAction pair := .act true a

/-- Both objects ask the provider for a mutex, and then it is taken out. -/
def removal : List (ProcessAction pair) :=
  [.change (.setProvider (some 5)), onMutex (.invoke 0 (LockOp.lock ())), onSignal (.invoke 1 .give),
    onMutex (.advance 0), onSignal (.advance 1), onMutex (.advance 0), onMutex (.advance 0),
    onSignal (.mutexStep (.advance 1)), onSignal (.mutexStep (.advance 1)), onMutex (.advance 0),
    onSignal (.mutexStep (.advance 1)), onSignal (.mutexStep (.advance 1)), .change .resetProvider]

/-- The two calls return, and the signal finds no provider. -/
def afterRemoval : List (ProcessAction pair) :=
  [onMutex (.create 0 .object), onSignal (.mutexStep (.create 1 .exception)), onMutex (.advance 0),
    onMutex (.advance 0), onMutex (.advance 0), onMutex (.perform 0 true),
    onSignal (.mutexStep (.advance 1)), onSignal (.mutexStep (.advance 1)),
    onSignal (.mutexStep (.advance 1)), onSignal (.mutexStep (.perform 1 true)),
    onSignal (.advance 1), onSignal (.advance 1), onSignal (.mutexStep (.advance 1)),
    onSignal (.mutexStep (.perform 1 true)), onSignal (.advance 1)]

theorem synchronization_jointly_linearizable_pair :
    ∃ s, run processNext (process pair initialStorage) (removal ++ afterRemoval) = some s ∧
      JointlyLinearizable (fun i => (pair i).atomic)
        (trace processNext (systemShows fun i => (pair i).shows) (process pair initialStorage)
          (removal ++ afterRemoval)) := by
  have completes : (run processNext (process pair initialStorage) (removal ++ afterRemoval)).isSome := by
    decide +kernel
  obtain ⟨s, hs⟩ := Option.isSome_iff_exists.mp completes
  exact ⟨s, hs, synchronization_jointly_linearizable pair initialStorage hs⟩

end

/-- How often the factories of the provider have been called. -/
def callsOf (p : ProviderId) (calls : List FactoryCall) : ℕ :=
  calls.countP fun call => decide (call.provider = p)

/-- Some thread has loaded the provider and is about to call its factory. -/
def Asking {Thread C : Type} (asked : C → Option ProviderId) (p : ProviderId) (pc : Thread → C) :
    Prop :=
  ∃ t, asked (pc t) = some p

def lockAsked {Op : Type} : LazyLock.Pc Op → Option ProviderId
  | .callFactory _ p => some p
  | _ => none

def signalAsked : DeferredSignal.Pc → Option ProviderId
  | .callFactory _ p => some p
  | _ => none

/-- The calls are counted from `low`, and those that are made or under way stay below `high`. -/
structure Within (p : ProviderId) (low high : ℕ) (calls : List FactoryCall) (asking : Prop) :
    Prop where
  low_le : low ≤ callsOf p calls
  le_high : callsOf p calls ≤ high
  room : asking → callsOf p calls < high

section
variable {p : ProviderId} {low high : ℕ} {calls : List FactoryCall} {asking asking' : Prop}

theorem Within.mono (h : Within p low high calls asking) (less : asking' → asking) :
    Within p low high calls asking' :=
  ⟨h.low_le, h.le_high, fun later => h.room (less later)⟩

theorem Within.call (h : Within p low high calls asking) {call : FactoryCall}
    (asked : call.provider = p → asking) (none : ¬ asking') :
    Within p low high (calls ++ [call]) asking' := by
  have grown : callsOf p (calls ++ [call]) =
      callsOf p calls + if call.provider = p then 1 else 0 := by
    simp [callsOf, List.countP_append, List.countP_singleton]
  have low_le := h.low_le
  have le_high := h.le_high
  by_cases hp : call.provider = p
  · have room := h.room (asked hp)
    rw [if_pos hp] at grown
    exact ⟨by omega, by omega, fun later => absurd later none⟩
  · rw [if_neg hp] at grown
    exact ⟨by omega, by omega, fun later => absurd later none⟩

variable {Thread C : Type} [DecidableEq Thread] {asked : C → Option ProviderId} {pc : Thread → C}
  {t : Thread} {c : C}

theorem asking_of_update (h : asked c = some p → asked (pc t) = some p)
    (later : Asking asked p (Function.update pc t c)) : Asking asked p pc := by
  obtain ⟨u, hu⟩ := later
  by_cases ht : u = t
  · subst ht
    rw [Function.update_self] at hu
    exact ⟨u, h hu⟩
  · rw [Function.update_of_ne ht] at hu
    exact ⟨u, hu⟩

/-- Where one thread at most can be about to call, none is when that one has called. -/
theorem not_asking_of_update (single : ∀ u, asked (pc u) = some p → u = t) (h : asked c = none) :
    ¬ Asking asked p (Function.update pc t c) := by
  rintro ⟨u, hu⟩
  by_cases ht : u = t
  · rw [ht, Function.update_self, h] at hu
    cases hu
  · rw [Function.update_of_ne ht] at hu
    exact ht (single u hu)

end

section
variable {Thread : Type} [DecidableEq Thread] {p : ProviderId} {low high : ℕ}
  {storage : ProviderStorage}

theorem lock_within {k : Kind Thread} {l l' : Lock k} {a : LazyLock.Action k}
    (absent : storage ≠ some p) (hl : LazyLock.Invariant l)
    (hw : Within p low high l.factoryCalls (Asking lockAsked p l.pc))
    (h : LazyLock.Step storage l a l') :
    Within p low high l'.factoryCalls (Asking lockAsked p l'.pc) := by
  cases h with
  | spin _ => exact hw
  | invoke _ | fastPath _ _ | slowPath _ | enter _ _ | alreadyResolved _ _ | unresolved _ _
  | unprovided _ _ | select _ | publish _ | leave _ | performed _ _ =>
    exact hw.mono (asking_of_update fun here => by cases here)
  | provided _ hq =>
    refine hw.mono (asking_of_update fun here => ?_)
    exact absurd (hq.trans here) absent
  | @created t op q outcome _ hpc hcreate =>
    have single : ∀ u, lockAsked (l.pc u) = some p → u = t := by
      intro u hu
      refine hl.token.single u t ?_ (by rw [hpc]; trivial)
      cases hc : l.pc u <;> rw [hc] at hu <;> trivial
    have called : l'.factoryCalls = l.factoryCalls ++ [⟨q, k.factory⟩] := by
      simp only [LazyLock.create, hpc] at hcreate
      cases outcome <;> rw [← Option.some.inj hcreate]
    rw [called, (Locks.create_goto hpc hcreate).1]
    refine hw.call (fun here => ⟨t, ?_⟩) (not_asking_of_update single rfl)
    rw [hpc]
    exact congrArg some here

theorem signal_within {k : SignalKind Thread} {s s' : DeferredSignal.State k}
    {a : DeferredSignal.Action Thread} (absent : s.storage ≠ some p) (hs : DeferredSignal.Guarded s)
    (hw : Within p low high s.factoryCalls (Asking signalAsked p s.pc))
    (h : DeferredSignal.Step s a s') :
    Within p low high s'.factoryCalls (Asking signalAsked p s'.pc) := by
  have single : ∀ {t op q}, s.pc t = .callFactory op q →
      ∀ u, signalAsked (s.pc u) = some p → u = t := by
    intro t op q hpc u hu
    refine hs.critical_unique ?_ (by rw [hpc]; trivial)
    cases hc : s.pc u <;> rw [hc] at hu <;> trivial
  cases h with
  | change _ => exact hw
  | @invoke t op _ =>
    exact hw.mono (asking_of_update fun here => by cases op <;> cases here)
  | interrupt _ =>
    refine hw.mono (asking_of_update fun here => ?_)
    cases hr : s.resolved <;> rw [hr] at here <;> cases here
  | fastPath _ _ | lock _ _ | alreadyResolved _ _ _ | unresolved _ _ | unprovided _ _ _
  | publish _ _ | refused _ | performed _ _ =>
    exact hw.mono (asking_of_update fun here => by cases here)
  | provided _ hq =>
    refine hw.mono (asking_of_update fun here => ?_)
    exact absurd (hq.trans here) absent
  | @inner b m _ _ =>
    unfold DeferredSignal.State.afterStep
    split
    · refine hw.mono (asking_of_update fun here => ?_)
      cases hc : s.pc (Locks.actor b) with
      | unlockMutex op r =>
        rw [hc] at here
        cases r <;> cases here
      | _ =>
        rw [hc] at here
        exact here
    · exact hw
  | @created t _ _ _ hpc hcalls =>
    refine hcalls ▸ hw.call (fun here => ⟨t, ?_⟩) (not_asking_of_update (single hpc) rfl)
    rw [hpc]
    exact congrArg some here
  | @createdNull t _ _ hpc _ =>
    refine hw.call (fun here => ⟨t, ?_⟩) (not_asking_of_update (single hpc) rfl)
    rw [hpc]
    exact congrArg some here

/-- The same of the mutex inside a signal. -/
theorem mutex_within {k : SignalKind Thread} {s s' : DeferredSignal.State k}
    {a : DeferredSignal.Action Thread} (absent : s.storage ≠ some p) (hs : DeferredSignal.Guarded s)
    (hw : Within p low high s.mutex.factoryCalls (Asking lockAsked p s.mutex.pc))
    (h : DeferredSignal.Step s a s') :
    Within p low high s'.mutex.factoryCalls (Asking lockAsked p s'.mutex.pc) := by
  cases h with
  | change _ | invoke _ | fastPath _ _ | unresolved _ _ | provided _ _ | interrupt _ | refused _
  | created _ _ | performed _ _ => exact hw
  | lock _ _ | alreadyResolved _ _ _ | unprovided _ _ _ | publish _ _ | createdNull _ _ =>
    exact hw.mono (asking_of_update fun here => by cases here)
  | @inner b m _ acted =>
    have within := lock_within absent hs.mutex hw acted
    unfold DeferredSignal.State.afterStep
    split <;> exact within

def Object.callsOf (p : ProviderId) : (o : Object Thread) → o.component.State → ℕ
  | .lock _, l => SynchronizationWorld.callsOf p l.factoryCalls
  | .signal _ _, s =>
    SynchronizationWorld.callsOf p s.factoryCalls + SynchronizationWorld.callsOf p s.mutex.factoryCalls

/-- A call of the provider's factory is under way, for the object or for the mutex inside it. -/
def Object.Asking (p : ProviderId) : (o : Object Thread) → o.component.State → Prop
  | .lock _, l => SynchronizationWorld.Asking lockAsked p l.pc
  | .signal _ _, s => SynchronizationWorld.Asking signalAsked p s.pc ∨
      SynchronizationWorld.Asking lockAsked p s.mutex.pc

/-- The factories that the object calls: that of a lock, or of a signal and of its mutex. -/
def Object.factories : Object Thread → ℕ
  | .lock _ => 1
  | .signal _ _ => 2

def Object.Sound : (o : Object Thread) → o.component.State → Prop
  | .lock _, l => LazyLock.Invariant l
  | .signal _ _, s => DeferredSignal.Guarded s

/-- Each factory is called at most `slack` times more than in the state `before`. -/
def Object.Bounded (p : ProviderId) (slack : ℕ) :
    (o : Object Thread) → o.component.State → o.component.State → Prop
  | .lock _, before, l =>
    let counted := SynchronizationWorld.callsOf p before.factoryCalls
    Within p counted (counted + slack) l.factoryCalls (SynchronizationWorld.Asking lockAsked p l.pc)
  | .signal _ _, before, s =>
    let counted := SynchronizationWorld.callsOf p before.factoryCalls
    let inner := SynchronizationWorld.callsOf p before.mutex.factoryCalls
    Within p counted (counted + slack) s.factoryCalls
        (SynchronizationWorld.Asking signalAsked p s.pc) ∧
      Within p inner (inner + slack) s.mutex.factoryCalls
        (SynchronizationWorld.Asking lockAsked p s.mutex.pc)

theorem sound_initial (o : Object Thread) : o.Sound o.initial := by
  cases o with
  | lock k => exact LazyLock.initial_invariant k
  | signal k initiallySet => exact (DeferredSignal.initial_invariant initialStorage initiallySet).1

theorem guarded_storage {k : SignalKind Thread} {s : DeferredSignal.State k}
    (h : DeferredSignal.Guarded s) (storage : ProviderStorage) :
    DeferredSignal.Guarded { s with storage := storage } :=
  ⟨h.mutex, h.phase⟩

theorem sound_step {o : Object Thread} {s s' : o.component.State} {a : o.component.Action}
    (hs : o.Sound s) (h : o.component.step storage s a = some s') : o.Sound s' := by
  cases o with
  | lock k => exact LazyLock.step_invariant hs (LazyLock.step_cases h)
  | signal k initiallySet =>
    have taken := DeferredSignal.step_cases (signalStep_next h)
    obtain ⟨mutex, phase⟩ := DeferredSignal.guarded_step (guarded_storage hs storage) taken
    exact ⟨mutex, phase⟩

theorem bounded_step {o : Object Thread} {slack : ℕ} {before s s' : o.component.State}
    {a : o.component.Action} (absent : storage ≠ some p) (hs : o.Sound s)
    (hb : o.Bounded p slack before s) (h : o.component.step storage s a = some s') :
    o.Bounded p slack before s' := by
  cases o with
  | lock k => exact lock_within absent hs hb (LazyLock.step_cases h)
  | signal k initiallySet =>
    have taken := DeferredSignal.step_cases (signalStep_next h)
    have moved := guarded_storage hs storage
    have own := signal_within (s := { s with storage := storage }) absent moved hb.1 taken
    have inner := mutex_within (s := { s with storage := storage }) absent moved hb.2 taken
    exact ⟨own, inner⟩

theorem within_start {calls : List FactoryCall} {asking : Prop} {slack : ℕ}
    (h : asking → 0 < slack) :
    Within p (callsOf p calls) (callsOf p calls + slack) calls asking :=
  ⟨Nat.le_refl _, Nat.le_add_right _ _, fun here => Nat.lt_add_of_pos_right (h here)⟩

theorem bounded_start {o : Object Thread} {slack : ℕ} (s : o.component.State)
    (h : o.Asking p s → 0 < slack) : o.Bounded p slack s s := by
  cases o with
  | lock k => exact within_start h
  | signal k initiallySet =>
    exact ⟨within_start fun own => h (.inl own), within_start fun inner => h (.inr inner)⟩

theorem callsOf_bounded {o : Object Thread} {slack : ℕ} {before s : o.component.State}
    (h : o.Bounded p slack before s) :
    o.callsOf p before ≤ o.callsOf p s ∧ o.callsOf p s ≤ o.callsOf p before + slack * o.factories := by
  cases o with
  | lock k =>
    refine ⟨h.low_le, ?_⟩
    rw [Object.factories, Nat.mul_one]
    exact h.le_high
  | signal k initiallySet =>
    have own := h.1.le_high
    have inner := h.2.le_high
    refine ⟨Nat.add_le_add h.1.low_le h.2.low_le, ?_⟩
    simp only [Object.callsOf, Object.factories]
    omega

variable {ι : Type} [DecidableEq ι]

theorem sound_run (objects : ι → Object Thread) (storage : ProviderStorage)
    {as : List (ProcessAction objects)} {s : System fun i => (objects i).component}
    (h : run processNext (process objects storage) as = some s) (i : ι) :
    (objects i).Sound (s.part i) := by
  have both := parts_run (E := fun _ => True) (I := fun i => (objects i).Sound)
    (fun i _ _ _ _ _ hs hstep => sound_step hs hstep) (fun _ _ _ _ => trivial) trivial
    (fun i => sound_initial (objects i)) h
  exact both.2 i

/-- A synchronization provider that has been taken out is done with, once the calls under way have
returned: till it is put in again, a lock calls it at most once more and a signal at most twice,
and an object with no call under way does not call it at all. -/
theorem removed_provider_calls (objects : ι → Object Thread) (storage : ProviderStorage)
    {as bs : List (ProcessAction objects)} {s t : System fun i => (objects i).component}
    (h : run processNext (process objects storage) as = some s) (h' : run processNext s bs = some t)
    (removed : s.env ≠ some p) (absent : ∀ c, .change c ∈ bs → c ≠ .setProvider (some p)) (i : ι) :
    (objects i).callsOf p (t.part i) ≤ (objects i).callsOf p (s.part i) + (objects i).factories ∧
      (¬ (objects i).Asking p (s.part i) →
        (objects i).callsOf p (t.part i) = (objects i).callsOf p (s.part i)) := by
  have stays : ∀ c, .change c ∈ bs → ∀ env, env ≠ some p → ProviderChange.apply env c ≠ some p := by
    intro c hc env _ same
    cases c with
    | resetProvider => cases same
    | setProvider q => exact absent _ hc (congrArg _ same)
  have bounded : ∀ slack : ι → ℕ, (∀ j, (objects j).Asking p (s.part j) → 0 < slack j) →
      (objects i).Bounded p (slack i) (s.part i) (t.part i) := by
    intro slack start
    have kept := parts_run (E := fun env => env ≠ some p)
      (I := fun i q => (objects i).Sound q ∧ (objects i).Bounded p (slack i) (s.part i) q)
      (fun i _ _ _ _ absent hq hstep => ⟨sound_step hq.1 hstep, bounded_step absent hq.1 hq.2 hstep⟩)
      stays removed (fun i => ⟨sound_run objects storage h i, bounded_start _ (start i)⟩) h'
    exact (kept.2 i).2
  refine ⟨?_, fun nobody => ?_⟩
  · have grown := (callsOf_bounded (bounded (fun _ => 1) fun _ _ => Nat.one_pos)).2
    rwa [Nat.one_mul] at grown
  · have others : ∀ j, (objects j).Asking p (s.part j) → 0 < Function.update (fun _ => 1) i 0 j := by
      intro j asking
      by_cases hj : j = i
      · exact absurd (hj ▸ asking) nobody
      · rw [Function.update_of_ne hj]
        exact Nat.one_pos
    have same := callsOf_bounded (bounded _ others)
    rw [Function.update_self, Nat.zero_mul] at same
    exact Nat.le_antisymm same.2 same.1

theorem removal_completes : (run processNext (process pair initialStorage) removal).isSome := by
  decide +kernel

theorem afterRemoval_completes :
    (run processNext (Option.get _ removal_completes) afterRemoval).isSome := by
  decide +kernel

theorem afterRemoval_absent (c : ProviderChange) : SystemAction.change c ∉ afterRemoval := by
  simp [afterRemoval, onMutex, onSignal]

theorem removed_provider_calls_pair :
    (pair true).callsOf 5 ((Option.get _ afterRemoval_completes).part true) ≤
      (pair true).callsOf 5 ((Option.get _ removal_completes).part true) + 2 := by
  have removed : (Option.get _ removal_completes).env ≠ some 5 := by decide +kernel
  exact (removed_provider_calls pair initialStorage (Option.some_get removal_completes).symm
    (Option.some_get afterRemoval_completes).symm removed
    (fun c hc => absurd hc (afterRemoval_absent c)) true).1

end

end ESPressioSystem.SynchronizationWorld
