import ESPressioSystem.SequentialResolution

set_option autoImplicit false

/-!
# Exceptions of a factory, at the edge of the `noexcept` operations
-/
namespace ESPressioSystem.ExceptionBoundary
open Transition SharedObject SynchronizationProvider Platform Signal SequentialResolution

inductive LockKind where
  | mutex
  | recursiveMutex
  | readWriteLock
  deriving DecidableEq, Repr

section
variable {σ : Type}

def LockKind.outcome (f : Factories σ) : LockKind → ProviderId → Outcome
  | .mutex => f.createMutex
  | .recursiveMutex => f.createRecursiveMutex
  | .readWriteLock => f.createReadWriteLock

def LockKind.resolve (storage : ProviderStorage) (f : Factories σ) : LockKind → LockState →
    Ending LockResolution
  | .mutex => mutexResolve storage f.createMutex
  | .recursiveMutex => recursiveMutexResolve storage f.createRecursiveMutex
  | .readWriteLock => readWriteLockResolve storage f.createReadWriteLock

/-- The call gets to `CreateBinarySignal`, and that throws. -/
def signalFactoryThrows (op : SignalOp) (storage : ProviderStorage) (f : Factories σ)
    (d : Deferred σ) : Bool :=
  match op, offered storage f d.initiallySet with
  | .giveFromInterrupt, _ => false
  | _, some .exception => !d.resolved
  | _, _ => false

/-- A call of a signal whose factory threw, and the signal when it had returned. -/
structure RefusedCall (κ : Type) where
  signal : κ
  result : PlatformResult
  resolved : Bool

/-- Besides the locks and signals, the locks whose factory has thrown and the calls that went to a
primitive. -/
structure World (ι κ σ : Type) where
  storage : ProviderStorage
  locks : ι → LockState
  signals : κ → Deferred σ
  thrown : List ι
  lockCalls : List (ι × Target)
  refused : List (RefusedCall κ)

/-- The operations of the primitives are `noexcept`, so it makes no difference which is called. -/
inductive Event (ι κ σ : Type) where
  | change (c : ProviderChange)
  | lockCall (i : ι) (op : LockOp Access) (factories : Factories σ)
  | signalCall (j : κ) (op : SignalOp) (factories : Factories σ)

variable {ι κ : Type}

def initial (storage : ProviderStorage) (initiallySet : κ → Bool) : World ι κ σ :=
  ⟨storage, fun _ => .initial, fun j => .initial (initiallySet j), [], [], []⟩

variable [DecidableEq ι] [DecidableEq κ] (kinds : ι → LockKind) (behaves : Behaviour σ)

def lockCall (w : World ι κ σ) (i : ι) (f : Factories σ) : Ending (World ι κ σ) :=
  ((kinds i).resolve w.storage f (w.locks i)).bind fun r =>
    .returned { w with
      locks := Function.update w.locks i r.lock
      thrown :=
        if factoryThrows w.storage ((kinds i).outcome f) (w.locks i) then i :: w.thrown else w.thrown
      lockCalls := (i, r.target) :: w.lockCalls }

def signalCall (w : World ι κ σ) (j : κ) (op : SignalOp) (f : Factories σ) : Ending (World ι κ σ) :=
  (operate behaves op w.storage f (w.signals j)).bind fun r =>
    .returned { w with
      signals := Function.update w.signals j r.1
      refused :=
        if signalFactoryThrows op w.storage f (w.signals j) then
          ⟨j, r.2.result, r.1.resolved⟩ :: w.refused
        else w.refused }

def step (w : World ι κ σ) : Event ι κ σ → Ending (World ι κ σ)
  | .change c => .returned { w with storage := c.apply w.storage }
  | .lockCall i _ f => lockCall kinds w i f
  | .signalCall j op f => signalCall behaves w j op f

/-- After an operation that has not returned nothing happens any more. -/
def next (e : Ending (World ι κ σ)) (a : Event ι κ σ) : Option (Ending (World ι κ σ)) :=
  some (e.bind fun w => step kinds behaves w a)

/-- As soon as a provider makes a signal, `Resolve` finds it. -/
def Resolvable (d : Deferred σ) : Prop :=
  d.resolved = false → ∀ storage f x, offered storage f d.initiallySet = some (.object x) →
    ∃ r, resolveSignal storage f d = .returned r ∧ r.1.resolved = true ∧ r.1.signal = some x

/-- All operations have returned. A lock whose factory threw has used its fallback only. A
signal whose factory threw has answered `Unavailable` and stayed unresolved; the mutex inside
each signal is free, and the signal can still be resolved. -/
def Unharmed : Ending (World ι κ σ) → Prop
  | .returned w =>
    (∀ i ∈ w.thrown, (w.locks i).resolved = some .fallback) ∧
      (∀ c ∈ w.lockCalls, (w.locks c.1).resolved = some c.2) ∧
      (∀ c ∈ w.refused, c.result = unavailable ∧ c.resolved = false) ∧
      ∀ j, (w.signals j).mutex.Idle ∧ Resolvable (w.signals j)
  | .terminated | .blocked => False

/-- No unresolved signal is operated on from a thread while the provider would throw. -/
def Quiet (e : Ending (World ι κ σ)) : Event ι κ σ → Prop
  | .signalCall j op f =>
    match e with
    | .returned w => op ≠ .giveFromInterrupt → (w.signals j).resolved = false →
        offered w.storage f (w.signals j).initiallySet ≠ some .exception
    | .terminated | .blocked => True
  | .change _ | .lockCall _ _ _ => True

structure Sound (w : World ι κ σ) : Prop where
  guardClear : ∀ i, (w.locks i).resolutionGuard = false
  unowned : ∀ i, (w.locks i).resolved = none → (w.locks i).owned = false
  thrown : ∀ i ∈ w.thrown, (w.locks i).resolved = some .fallback
  lockCalls : ∀ c ∈ w.lockCalls, (w.locks c.1).resolved = some c.2
  refused : w.refused = []
  signals : ∀ j, (w.signals j).Sound

omit [DecidableEq ι] [DecidableEq κ] in
theorem initial_sound (storage : ProviderStorage) (initiallySet : κ → Bool) :
    Sound (initial storage initiallySet : World ι κ σ) :=
  ⟨fun _ => rfl, fun _ _ => rfl, nofun, nofun, rfl,
    fun j => deferred_initial_sound (initiallySet j)⟩

theorem resolvable_of_sound {d : Deferred σ} (hd : d.Sound) : Resolvable d := by
  intro hr storage f x ho
  obtain ⟨m, calls, _, made⟩ := resolveSignal_object hd hr ho
  exact ⟨_, made, rfl, rfl⟩

omit [DecidableEq ι] [DecidableEq κ] in
theorem unharmed_of_sound {w : World ι κ σ} (h : Sound w) : Unharmed (.returned w) := by
  refine ⟨h.thrown, h.lockCalls, ?_, fun j => ⟨(h.signals j).idle, resolvable_of_sound (h.signals j)⟩⟩
  rw [h.refused]
  exact nofun

theorem signalFactoryThrows_iff {op : SignalOp} {storage : ProviderStorage} {f : Factories σ}
    {d : Deferred σ} : signalFactoryThrows op storage f d = true ↔
      op ≠ .giveFromInterrupt ∧ d.resolved = false ∧
        offered storage f d.initiallySet = some .exception := by
  unfold signalFactoryThrows
  split
  · simp
  · rename_i normal ho
    simp only [ho, and_true, Bool.not_eq_true']
    exact ⟨fun hr => ⟨normal, hr⟩, And.right⟩
  · rename_i hnot
    simp only [Bool.false_eq_true, false_iff]
    exact fun h => hnot h.2.2

theorem kind_resolve (storage : ProviderStorage) (f : Factories σ) (kind : LockKind) :
    ∃ factory, kind.resolve storage f = resolve factory storage (kind.outcome f) := by
  cases kind with
  | mutex => exact ⟨_, rfl⟩
  | recursiveMutex => exact ⟨_, rfl⟩
  | readWriteLock => exact ⟨_, rfl⟩

theorem resolve_target {factory : Factory} {storage : ProviderStorage}
    {outcome : ProviderId → Outcome} {l : LockState} {r : LockResolution}
    (h : resolve factory storage outcome l = .returned r) :
    (∀ target, l.resolved = some target → r.target = target) ∧
      (l.owned = false → factoryThrows storage outcome l = true → r.target = .fallback) := by
  unfold resolve at h
  cases hr : l.resolved with
  | some target =>
    simp only [hr, Ending.returned.injEq] at h
    subst h
    refine ⟨fun t ht => Option.some.inj ht, fun _ hthrows => ?_⟩
    simp [factoryThrows, hr] at hthrows
  | none =>
    simp only [hr] at h
    split at h
    · cases h
    · rw [← Ending.returned.inj h]
      refine ⟨nofun, fun hfree hthrows => ?_⟩
      cases hp : provider storage with
      | none => simp [factoryThrows, hp] at hthrows
      | some p =>
        have thrown : outcome p = .exception := by
          simpa [factoryThrows, hr, hp] using hthrows
        simp [createOwned, hp, thrown, hfree]

theorem factoryThrows_unresolved {storage : ProviderStorage} {outcome : ProviderId → Outcome}
    {l : LockState} (h : factoryThrows storage outcome l = true) : l.resolved = none := by
  rw [factoryThrows, Bool.and_eq_true] at h
  exact Option.isNone_iff_eq_none.mp h.1

omit [DecidableEq ι] in
theorem mem_thrown {threw : Bool} {i k : ι} {thrown : List ι} :
    k ∈ (if threw then i :: thrown else thrown) ↔ threw = true ∧ k = i ∨ k ∈ thrown := by
  cases threw <;> simp

theorem update_resolved {locks : ι → LockState} {i : ι} {l : LockState}
    (h : ∀ target, (locks i).resolved = some target → l.resolved = some target) :
    ∀ k target, (locks k).resolved = some target →
      (Function.update locks i l k).resolved = some target :=
  (Function.forall_update_iff locks fun k x =>
    ∀ target, (locks k).resolved = some target → x.resolved = some target).mpr
      ⟨h, fun _ _ _ same => same⟩

omit [DecidableEq κ] in
theorem lockCall_returned {w : World ι κ σ} (hw : Sound w) (i : ι) (f : Factories σ) :
    ∃ w', lockCall kinds w i f = .returned w' ∧ Sound w' := by
  obtain ⟨factory, hkind⟩ := kind_resolve w.storage f (kinds i)
  obtain ⟨r, hr, hguard, hresolved⟩ :=
    resolve_returned factory w.storage ((kinds i).outcome f) (hw.guardClear i)
  obtain ⟨keeps, falls⟩ := resolve_target hr
  have now : (Function.update w.locks i r.lock i).resolved = some r.target := by
    rw [Function.update_self, hresolved]
  have kept := update_resolved fun target hi => hresolved.trans (congrArg some (keeps target hi))
  refine ⟨_, by rw [lockCall, hkind, hr, returned_bind], ?_⟩
  refine ⟨?_, ?_, ?_, ?_, hw.refused, hw.signals⟩
  · exact (Function.forall_update_iff w.locks fun _ l => l.resolutionGuard = false).mpr
      ⟨hguard, fun k _ => hw.guardClear k⟩
  · refine (Function.forall_update_iff w.locks fun _ l => l.resolved = none → l.owned = false).mpr
      ⟨fun unresolved => ?_, fun k _ => hw.unowned k⟩
    cases hresolved.symm.trans unresolved
  · intro k hk
    rcases mem_thrown.mp hk with ⟨hthrows, rfl⟩ | hold
    · have fallback := falls (hw.unowned k (factoryThrows_unresolved hthrows)) hthrows
      exact now.trans (congrArg some fallback)
    · exact kept k _ (hw.thrown k hold)
  · intro c hc
    rcases List.mem_cons.mp hc with rfl | hc
    · exact now
    · exact kept c.1 c.2 (hw.lockCalls c hc)

omit [DecidableEq ι] in
theorem signalCall_returned {w : World ι κ σ} (hw : Sound w) {j : κ} {op : SignalOp}
    {f : Factories σ} (quiet : Quiet (.returned w) (.signalCall j op f)) :
    ∃ w', signalCall behaves w j op f = .returned w' ∧ Sound w' := by
  have ending : ∃ r, operate behaves op w.storage f (w.signals j) = .returned r ∧ r.1.Sound := by
    by_cases hop : op = .giveFromInterrupt
    · subst hop
      exact ⟨_, rfl, applyResolved_sound (hw.signals j) behaves _ []⟩
    · obtain ⟨r, hr, sound⟩ := resolveSignal_returned (hw.signals j) (quiet hop)
      refine ⟨applyResolved behaves r.1 op r.2, ?_, applyResolved_sound sound behaves op r.2⟩
      rw [operate_normal hop, resolveAndApply, hr, returned_bind]
  obtain ⟨r, hr, sound⟩ := ending
  have silent : signalFactoryThrows op w.storage f (w.signals j) = false := by
    rw [Bool.eq_false_iff, ne_eq, signalFactoryThrows_iff]
    exact fun ⟨hop, hr, ho⟩ => quiet hop hr ho
  refine ⟨_, by rw [signalCall, hr, returned_bind, silent], ?_⟩
  refine ⟨hw.guardClear, hw.unowned, hw.thrown, hw.lockCalls, hw.refused, ?_⟩
  exact (Function.forall_update_iff w.signals fun _ d => d.Sound).mpr ⟨sound, fun k _ => hw.signals k⟩

omit [DecidableEq ι] in
theorem signalCall_terminated {w : World ι κ σ} (hw : Sound w) {j : κ} {op : SignalOp}
    {f : Factories σ} (loud : ¬ Quiet (.returned w) (.signalCall j op f)) :
    signalCall behaves w j op f = .terminated := by
  simp only [Quiet, not_forall, not_not] at loud
  obtain ⟨hop, hr, ho⟩ := loud
  rw [signalCall, operate_normal hop, resolveAndApply, resolveSignal_exception (hw.signals j) hr ho]
  rfl

omit [DecidableEq ι] [DecidableEq κ] in
def Live : Ending (World ι κ σ) → Prop
  | .returned w => Sound w
  | .terminated | .blocked => True

theorem step_ending {w : World ι κ σ} (hw : Sound w) (a : Event ι κ σ) :
    Live (step kinds behaves w a) ∧
      (Unharmed (step kinds behaves w a) ↔ Quiet (.returned w) a) := by
  cases a with
  | change c =>
    have sound : Sound { w with storage := c.apply w.storage } :=
      ⟨hw.guardClear, hw.unowned, hw.thrown, hw.lockCalls, hw.refused, hw.signals⟩
    exact ⟨sound, iff_of_true (unharmed_of_sound sound) trivial⟩
  | lockCall i op f =>
    obtain ⟨w', hw', sound⟩ := lockCall_returned kinds hw i f
    rw [step, hw']
    exact ⟨sound, iff_of_true (unharmed_of_sound sound) trivial⟩
  | signalCall j op f =>
    by_cases quiet : Quiet (.returned w) (.signalCall j op f)
    · obtain ⟨w', hw', sound⟩ := signalCall_returned behaves hw quiet
      rw [step, hw']
      exact ⟨sound, iff_of_true (unharmed_of_sound sound) quiet⟩
    · rw [step, signalCall_terminated behaves hw quiet]
      exact ⟨trivial, iff_of_false id quiet⟩

theorem run_total (e : Ending (World ι κ σ)) (events : List (Event ι κ σ)) :
    ∃ t, run (next kinds behaves) e events = some t := by
  induction events generalizing e with
  | nil => exact ⟨e, rfl⟩
  | cons a events ih => exact ih (e.bind fun w => step kinds behaves w a)

/-- Every operation returns, with the fallbacks and the inner locks as they should be, in
exactly those executions in which no unresolved signal meets a factory that throws. -/
theorem operations_return_iff (storage : ProviderStorage) (initiallySet : κ → Bool)
    (events : List (Event ι κ σ)) :
    Throughout (next kinds behaves) Unharmed (.returned (initial storage initiallySet)) events ↔
      Meets (next kinds behaves) Quiet (.returned (initial storage initiallySet)) events := by
  obtain ⟨t, ht⟩ := run_total kinds behaves (.returned (initial storage initiallySet)) events
  have start := initial_sound (ι := ι) (κ := κ) (σ := σ) storage initiallySet
  refine throughout_iff_meets (D := fun _ _ => True) (I := Live) ?_ ?_
    (meets_of_forall (fun _ _ => trivial) _ _) start (unharmed_of_sound start) ht
  · intro e a u _ live hu
    rw [← Option.some.inj hu]
    cases e with
    | returned w => exact (step_ending kinds behaves live a).1
    | terminated => trivial
    | blocked => trivial
  · intro e a u _ live unharmed hu
    rw [← Option.some.inj hu]
    cases e with
    | returned w => exact (step_ending kinds behaves live a).2
    | terminated => exact absurd unharmed id
    | blocked => exact absurd unharmed id

def exhausted : Factories Unit where
  createBinarySignal := fun _ _ => .exception
  createMutex := fun _ => .exception
  createRecursiveMutex := fun _ => .exception
  createReadWriteLock := fun _ => .exception

/-- The mutex survives the exception, the signal does not. -/
theorem operations_return_exhausted :
    ¬ Throughout (next (fun _ : Unit => .mutex) fun x _ => (x, succeeded)) Unharmed
      (.returned (initial initialStorage fun _ : Unit => false))
      [.change (.setProvider (some 1)), .lockCall () (.lock .exclusive) exhausted,
        .signalCall () .give exhausted] := by
  rintro ⟨_, later⟩
  exact ((later _ rfl).2 _ rfl).2 _ rfl

end

end ESPressioSystem.ExceptionBoundary
