import ESPressioSystem.SequentialResolution

set_option autoImplicit false

/-!
# A deferred signal answers like an eager one, from the call on that resolves it
-/
namespace ESPressioSystem.DeferredEquivalence
open SynchronizationProvider Platform Signal SequentialResolution

section
variable {σ : Type}

/-- A provider change, or a call made while the factories would behave as given. -/
inductive Event (σ : Type) where
  | change (c : ProviderChange)
  | call (op : SignalOp) (factories : Factories σ)

def Event.storageAfter (storage : ProviderStorage) : Event σ → ProviderStorage
  | .change c => c.apply storage
  | .call _ _ => storage

def storageAfter (storage : ProviderStorage) (events : List (Event σ)) : ProviderStorage :=
  events.foldl Event.storageAfter storage

def runDeferred (behaves : Behaviour σ) : ProviderStorage → Deferred σ → List (Event σ) →
    Ending (List Completed)
  | _, _, [] => .returned []
  | storage, d, .change c :: events => runDeferred behaves (c.apply storage) d events
  | storage, d, .call op f :: events =>
    (operate behaves op storage f d).bind fun r =>
      (runDeferred behaves storage r.1 events).bind fun answers => .returned (r.2 :: answers)

/-- The same operations on a signal that is there from the start. -/
def runEager (behaves : Behaviour σ) : σ → List (Event σ) → List PlatformResult
  | _, [] => []
  | x, .change _ :: events => runEager behaves x events
  | x, .call op _ :: events => (behaves x op).2 :: runEager behaves (behaves x op).1 events

/-- The signal that the event makes an unresolved signal resolve to. -/
def resolving (storage : ProviderStorage) (initiallySet : Bool) : Event σ → Option σ
  | .change _ | .call .giveFromInterrupt _ => none
  | .call _ f =>
    match offered storage f initiallySet with
    | some (.object x) => some x
    | _ => none

def Unresolving (initiallySet : Bool) : ProviderStorage → List (Event σ) → Prop
  | _, [] => True
  | storage, e :: events =>
    resolving storage initiallySet e = none ∧ Unresolving initiallySet (e.storageAfter storage) events

def callCount (events : List (Event σ)) : ℕ :=
  events.countP fun
    | .change _ => false
    | .call _ _ => true

/-- What the operations should answer. -/
def expected (behaves : Behaviour σ) (initiallySet : Bool) : ProviderStorage → List (Event σ) →
    List PlatformResult
  | _, [] => []
  | storage, .change c :: events => expected behaves initiallySet (c.apply storage) events
  | storage, .call op f :: events =>
    match resolving storage initiallySet (.call op f) with
    | some x => runEager behaves x (.call op f :: events)
    | none => unavailable :: expected behaves initiallySet storage events

def NoneThrows (events : List (Event σ)) : Prop :=
  ∀ op f, .call op f ∈ events → ∀ p initiallySet, f.createBinarySignal p initiallySet ≠ .exception

def InterruptsCreateNothing (answers : List Completed) : Prop :=
  ∀ a ∈ answers, a.op = .giveFromInterrupt → a.factoryCalls = []

variable (behaves : Behaviour σ) (storage : ProviderStorage) {f : Factories σ} {d : Deferred σ}
  {op : SignalOp}

theorem resolving_normal {storage : ProviderStorage} (h : op ≠ .giveFromInterrupt)
    (initiallySet : Bool) {x : σ} :
    resolving storage initiallySet (.call op f) = some x ↔
      offered storage f initiallySet = some (.object x) := by
  cases op with
  | giveFromInterrupt => exact absurd rfl h
  | give | wait _ | reset =>
    simp only [resolving]
    split
    · rename_i y hy
      rw [hy]
      simp
    · rename_i hnot
      exact iff_of_false nofun (hnot x)

theorem normal_of_resolving {storage : ProviderStorage} {initiallySet : Bool} {x : σ}
    (h : resolving storage initiallySet (.call op f) = some x) : op ≠ .giveFromInterrupt := by
  intro hop
  subst hop
  cases h

theorem operate_resolved (hr : d.resolved = true) {x : σ} (hx : d.signal = some x) (op : SignalOp) :
    operate behaves op storage f d =
      .returned ({ d with signal := some (behaves x op).1 }, ⟨op, (behaves x op).2, []⟩) := by
  have applied := applyResolved_resolved hr hx behaves op []
  by_cases h : op = .giveFromInterrupt
  · subst h
    exact congrArg Ending.returned applied
  · rw [operate_normal h, resolveAndApply, resolveSignal_resolved hr, returned_bind, applied]

theorem operate_resolving (hd : d.Sound) (hr : d.resolved = false) {x : σ}
    (h : resolving storage d.initiallySet (.call op f) = some x) :
    ∃ m calls, operate behaves op storage f d = .returned
      (⟨d.initiallySet, some (behaves x op).1, true, m⟩, ⟨op, (behaves x op).2, calls⟩) := by
  have normal := normal_of_resolving h
  obtain ⟨m, calls, _, resolved⟩ :=
    resolveSignal_object hd hr ((resolving_normal normal d.initiallySet).mp h)
  refine ⟨m, calls, ?_⟩
  rw [operate_normal normal, resolveAndApply, resolved, returned_bind]
  exact congrArg Ending.returned (applyResolved_resolved rfl rfl behaves op calls)

theorem operate_unresolved (normal : op ≠ .giveFromInterrupt) {d' : Deferred σ}
    {calls : List FactoryCall} (tried : resolveSignal storage f d = .returned (d', calls))
    (hr : d'.resolved = false) :
    operate behaves op storage f d = .returned (d', ⟨op, unavailable, calls⟩) := by
  rw [operate_normal normal, resolveAndApply, tried, returned_bind]
  exact congrArg Ending.returned (applyResolved_unresolved hr behaves op calls)

theorem operate_unresolving (hd : d.Sound) (hr : d.resolved = false)
    (quiet : ∀ p, f.createBinarySignal p d.initiallySet ≠ .exception)
    (h : resolving storage d.initiallySet (.call op f) = none) :
    ∃ d' calls, operate behaves op storage f d = .returned (d', ⟨op, unavailable, calls⟩) ∧
      d'.Sound ∧ d'.resolved = false ∧ d'.initiallySet = d.initiallySet ∧
      (op = .giveFromInterrupt → calls = []) := by
  by_cases normal : op = .giveFromInterrupt
  · subst normal
    exact ⟨d, [], congrArg Ending.returned (applyResolved_unresolved hr behaves _ []), hd, hr, rfl,
      fun _ => rfl⟩
  · cases ho : offered storage f d.initiallySet with
    | none =>
      obtain ⟨m, calls, idle, tried⟩ := resolveSignal_none hd hr ho
      exact ⟨{ d with mutex := m }, calls, operate_unresolved behaves storage normal tried hr,
        ⟨idle, hd.owned⟩, hr, rfl, fun hop => absurd hop normal⟩
    | some made =>
      cases made with
      | object x =>
        rw [(resolving_normal normal d.initiallySet).mpr ho] at h
        cases h
      | exception =>
        obtain ⟨p, _, hthrow⟩ := Option.map_eq_some_iff.mp ho
        exact absurd hthrow (quiet p)
      | null =>
        obtain ⟨m, calls, idle, tried⟩ := resolveSignal_null hd hr ho
        have unowned : d.resolved = true → ∃ x, (none : Option σ) = some x := by
          intro hrt
          rw [hr] at hrt
          cases hrt
        exact ⟨{ d with mutex := m, signal := none }, calls,
          operate_unresolved behaves storage normal tried hr, ⟨idle, unowned⟩, hr, rfl,
          fun hop => absurd hop normal⟩

theorem runDeferred_call {d' : Deferred σ} {c : Completed} {events : List (Event σ)}
    {answers : List Completed} (first : operate behaves op storage f d = .returned (d', c))
    (later : runDeferred behaves storage d' events = .returned answers) :
    runDeferred behaves storage d (.call op f :: events) = .returned (c :: answers) := by
  rw [runDeferred, first, returned_bind, later, returned_bind]

theorem interruptsCreateNothing_cons {c : Completed} {answers : List Completed}
    (first : c.op = .giveFromInterrupt → c.factoryCalls = []) (later : InterruptsCreateNothing answers) :
    InterruptsCreateNothing (c :: answers) :=
  List.forall_mem_cons.mpr ⟨first, later⟩

theorem run_resolved (events : List (Event σ)) (hr : d.resolved = true) {x : σ}
    (hx : d.signal = some x) :
    ∃ answers, runDeferred behaves storage d events = .returned answers ∧
      InterruptsCreateNothing answers ∧
      answers.map Completed.result = runEager behaves x events := by
  induction events generalizing storage d x with
  | nil => exact ⟨[], rfl, nofun, rfl⟩
  | cons e events ih =>
    cases e with
    | change c => exact ih (c.apply storage) hr hx
    | call op f =>
      obtain ⟨answers, hrun, quiet, results⟩ := ih storage
        (d := { d with signal := some (behaves x op).1 }) hr rfl
      have first := operate_resolved behaves storage (f := f) hr hx op
      refine ⟨_, runDeferred_call behaves storage first hrun,
        interruptsCreateNothing_cons (fun _ => rfl) quiet, ?_⟩
      rw [List.map_cons, results, runEager]

theorem run_unresolved (events : List (Event σ)) (hd : d.Sound) (hr : d.resolved = false)
    (quiet : NoneThrows events) :
    ∃ answers, runDeferred behaves storage d events = .returned answers ∧
      InterruptsCreateNothing answers ∧
      answers.map Completed.result = expected behaves d.initiallySet storage events := by
  induction events generalizing storage d with
  | nil => exact ⟨[], rfl, nofun, rfl⟩
  | cons e events ih =>
    have later : NoneThrows events := fun op f h => quiet op f (List.mem_cons_of_mem e h)
    cases e with
    | change c => exact ih (c.apply storage) hd hr later
    | call op f =>
      cases hres : resolving storage d.initiallySet (.call op f) with
      | some x =>
        obtain ⟨m, calls, first⟩ := operate_resolving behaves storage hd hr hres
        obtain ⟨answers, hrun, still, results⟩ := run_resolved behaves storage
          (d := ⟨d.initiallySet, some (behaves x op).1, true, m⟩) events rfl rfl
        refine ⟨_, runDeferred_call behaves storage first hrun,
          interruptsCreateNothing_cons (fun hop => absurd hop (normal_of_resolving hres)) still, ?_⟩
        simp only [List.map_cons, results, expected, hres, runEager]
      | none =>
        obtain ⟨d', calls, first, hd', hr', same, interrupt⟩ := operate_unresolving behaves
          storage hd hr (fun p => quiet op f List.mem_cons_self p _) hres
        obtain ⟨answers, hrun, still, results⟩ := ih storage hd' hr' later
        refine ⟨_, runDeferred_call behaves storage first hrun,
          interruptsCreateNothing_cons interrupt still, ?_⟩
        rw [List.map_cons, results, expected, hres, same]

theorem callCount_change (c : ProviderChange) (events : List (Event σ)) :
    callCount (.change c :: events) = callCount events := by
  simp [callCount]

theorem callCount_call (op : SignalOp) (f : Factories σ) (events : List (Event σ)) :
    callCount (.call op f :: events) = callCount events + 1 := by
  simp [callCount]

theorem expected_append (initiallySet : Bool) {before : List (Event σ)} (later : List (Event σ))
    (h : Unresolving initiallySet storage before) :
    expected behaves initiallySet storage (before ++ later) =
      List.replicate (callCount before) unavailable ++
        expected behaves initiallySet (storageAfter storage before) later := by
  induction before generalizing storage with
  | nil => rfl
  | cons e before ih =>
    cases e with
    | change c =>
      rw [callCount_change]
      exact ih (c.apply storage) h.2
    | call op f =>
      have rest := ih storage h.2
      rw [callCount_call, List.replicate_succ, List.cons_append, List.cons_append]
      simp only [expected, h.1, rest]
      rfl

theorem expected_unresolving (initiallySet : Bool) {events : List (Event σ)}
    (h : Unresolving initiallySet storage events) :
    expected behaves initiallySet storage events = List.replicate (callCount events) unavailable := by
  have whole := expected_append behaves storage initiallySet [] h
  rwa [List.append_nil, expected, List.append_nil] at whole

theorem expected_resolving (initiallySet : Bool) {before after : List (Event σ)} {x : σ}
    (h : Unresolving initiallySet storage before)
    (hx : resolving (storageAfter storage before) initiallySet (.call op f) = some x) :
    expected behaves initiallySet storage (before ++ .call op f :: after) =
      List.replicate (callCount before) unavailable ++ runEager behaves x (.call op f :: after) := by
  rw [expected_append behaves storage initiallySet _ h]
  simp only [expected, hx]

theorem createBinarySignal_resolving {initiallySet : Bool} {x : σ}
    (h : resolving storage initiallySet (.call op f) = some x) :
    createBinarySignal storage f initiallySet = .provided x := by
  have normal := normal_of_resolving h
  obtain ⟨p, hp, hmade⟩ := Option.map_eq_some_iff.mp ((resolving_normal normal initiallySet).mp h)
  simp only [createBinarySignal, hp, hmade]

/-- Until the first call that finds a provider ready to make a signal, every operation answers
`Unavailable`; from that call on, the answers are those of the signal made at that moment. -/
theorem deferred_agrees_with_eager (behaves : Behaviour σ) (initiallySet : Bool)
    (storage : ProviderStorage) (events : List (Event σ)) (quiet : NoneThrows events) :
    ∃ answers, runDeferred behaves storage (.initial initiallySet) events = .returned answers ∧
      InterruptsCreateNothing answers ∧
      (Unresolving initiallySet storage events →
        answers.map Completed.result = List.replicate (callCount events) unavailable) ∧
      ∀ before op f after x, events = before ++ .call op f :: after →
        Unresolving initiallySet storage before →
        resolving (storageAfter storage before) initiallySet (.call op f) = some x →
        createBinarySignal (storageAfter storage before) f initiallySet = .provided x ∧
          answers.map Completed.result = List.replicate (callCount before) unavailable ++
            runEager behaves x (.call op f :: after) := by
  obtain ⟨answers, hrun, interrupts, results⟩ :=
    run_unresolved behaves storage events (deferred_initial_sound initiallySet) rfl quiet
  refine ⟨answers, hrun, interrupts, fun h => ?_, ?_⟩
  · exact results.trans (expected_unresolving behaves storage initiallySet h)
  · intro before op f after x hsplit hbefore hx
    refine ⟨createBinarySignal_resolving _ hx, results.trans ?_⟩
    rw [hsplit]
    exact expected_resolving behaves storage initiallySet hbefore hx

def flagBehaviour : Behaviour Bool
  | _, .give | _, .giveFromInterrupt => (true, succeeded)
  | true, .wait _ => (false, succeeded)
  | false, .wait _ => (false, failed .timeout 0)
  | _, .reset => (false, succeeded)

def flagFactories (ready : Bool) : Factories Bool where
  createBinarySignal := fun _ initiallySet => if ready then .object initiallySet else .null
  createMutex := fun _ => .null
  createRecursiveMutex := fun _ => .null
  createReadWriteLock := fun _ => .null

theorem flagFactories_quiet (ready : Bool) (p : ProviderId) (initiallySet : Bool) :
    (flagFactories ready).createBinarySignal p initiallySet ≠ .exception := by
  cases ready <;> nofun

/-- Interrupts and failed attempts, before the signal is made and waited for. -/
def attempts : List (Event Bool) :=
  [.call .giveFromInterrupt (flagFactories true), .change (.setProvider (some 4)),
    .call .giveFromInterrupt (flagFactories true), .call .give (flagFactories false)]

theorem deferred_agrees_with_eager_attempts :
    ∃ answers, runDeferred flagBehaviour none (.initial true)
        (attempts ++ [.call (.wait 10) (flagFactories true), .change .resetProvider,
          .call (.wait 10) (flagFactories true)]) = .returned answers ∧
      answers.map Completed.result =
        [unavailable, unavailable, unavailable, succeeded, failed .timeout 0] := by
  have quiet : NoneThrows (attempts ++ [.call (.wait 10) (flagFactories true),
      .change .resetProvider, .call (.wait 10) (flagFactories true)]) := by
    intro op f hf
    have form : f = flagFactories true ∨ f = flagFactories false := by
      simp [attempts] at hf
      tauto
    rcases form with rfl | rfl
    · exact flagFactories_quiet true
    · exact flagFactories_quiet false
  obtain ⟨answers, hrun, _, _, resolved⟩ :=
    deferred_agrees_with_eager flagBehaviour true none _ quiet
  exact ⟨answers, hrun,
    (resolved attempts _ _ _ true rfl ⟨rfl, rfl, rfl, rfl, trivial⟩ rfl).2⟩

end

end ESPressioSystem.DeferredEquivalence
