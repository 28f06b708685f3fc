import ESPressioSystem.DeferredSignalInvariant

set_option autoImplicit false

/-!
# A deferred signal publishes one signal and sends every call to it
-/
namespace ESPressioSystem.DeferredSignal
open Transition SharedObject SynchronizationProvider Platform Signal LazyLock Locks

/-- What a thread knows of the published signal at its program point. -/
def Knows (resolved signal : Option ℕ) : Pc → Prop
  | .loadProvider _ | .callFactory _ _ => resolved = none
  | .storeResolved _ n => resolved = none ∧ signal = some n
  | .unlockMutex _ (some n) | .callSignal _ n => resolved = some n
  | .idle | .loadResolved _ | .lockMutex _ | .reloadResolved _ | .unlockMutex _ none
  | .returnUnavailable _ | .loadForInterrupt => True

section
variable {Thread : Type}

def Answered (resolved : Option ℕ) (c : SignalCall Thread) : Prop :=
  match c.target with
  | some n => resolved = some n
  | none => c.ret = unavailable

def appliedCall (c : SignalCall Thread) : Option (Call Thread SignalOp PlatformResult) :=
  c.target.map fun _ => ⟨c.thread, c.op, c.ret⟩

def applied (history : List (SignalCall Thread)) : List (Call Thread SignalOp PlatformResult) :=
  history.filterMap appliedCall

theorem applied_append (history : List (SignalCall Thread)) (c : SignalCall Thread) :
    applied (history ++ [c]) = applied history ++ (appliedCall c).toList := by
  unfold applied
  rw [List.filterMap_append]
  cases hc : appliedCall c <;> simp [hc]

theorem answered_append {history : List (SignalCall Thread)} {resolved : Option ℕ}
    {c : SignalCall Thread} (h : ∀ d ∈ history, Answered resolved d) (hc : Answered resolved c) :
    ∀ d ∈ history ++ [c], Answered resolved d := by
  intro d hd
  rcases List.mem_append.mp hd with hd | hd
  · exact h d hd
  · rw [List.mem_singleton.mp hd]
    exact hc

theorem answered_unresolved {history : List (SignalCall Thread)} {resolved : Option ℕ}
    (h : ∀ c ∈ history, Answered none c) : ∀ c ∈ history, Answered resolved c := by
  intro c hc
  have before := h c hc
  unfold Answered at before ⊢
  cases ht : c.target with
  | none => rwa [ht] at before
  | some n =>
    rw [ht] at before
    cases before

def semaphoreAnswer (c : SignalCall Thread) : SemaphoreOp × Bool :=
  (semaphoreOp c.op, c.ret.isSuccess)

def successfulWaits (history : List (SignalCall Thread)) : ℕ :=
  successes .take (history.map semaphoreAnswer)

/-- `Give` and `GiveFromInterrupt` together. -/
def successfulGives (history : List (SignalCall Thread)) : ℕ :=
  successes .give (history.map semaphoreAnswer)

theorem successes_applied {history : List (SignalCall Thread)} {resolved : Option ℕ}
    (h : ∀ c ∈ history, Answered resolved c) (op : SemaphoreOp) :
    successes op (history.map semaphoreAnswer) =
      successes op ((applied history).map semaphoreCall) := by
  induction history with
  | nil => rfl
  | cons c history ih =>
    have rest := ih fun d hd => h d (List.mem_cons_of_mem c hd)
    have first := h c List.mem_cons_self
    unfold successes applied at rest ⊢
    rw [List.map_cons, List.count_cons, rest]
    cases ht : c.target with
    | some n =>
      have reached : appliedCall c = some ⟨c.thread, c.op, c.ret⟩ := by simp [appliedCall, ht]
      rw [List.filterMap_cons_some reached, List.map_cons, List.count_cons]
      rfl
    | none =>
      have missed : appliedCall c = none := by simp [appliedCall, ht]
      have failure : c.ret = unavailable := by rwa [Answered, ht] at first
      have differs : (semaphoreAnswer c == (op, true)) = false := by
        simp [semaphoreAnswer, failure]
      rw [List.filterMap_cons_none missed, differs]
      rfl

variable [DecidableEq Thread] {k : SignalKind Thread}

/-- The signal `n` is what the latest factory call made, and has served the calls listed. -/
def Served (s : State k) (n : ℕ) : Prop :=
  ∃ p, s.factoryCalls.getLast? = some ⟨p, .createBinarySignal s.initiallySet⟩ ∧
    run (k.primitive p s.initiallySet).next (k.create p s.initiallySet) (applied s.history) =
      some (s.objects n)

structure Published (s : State k) : Prop where
  knows : ∀ t, Knows s.resolved s.signal (s.pc t)
  owned : ∀ n, s.resolved = some n → s.signal = some n
  untouched : s.resolved = none → applied s.history = []
  served : ∀ n, s.signal = some n → Served s n
  answered : ∀ c ∈ s.history, Answered s.resolved c

theorem knows_goto {s : State k} (hs : Published s) {t : Thread} {c : Pc}
    (hc : Knows s.resolved s.signal c) :
    ∀ u, Knows s.resolved s.signal (Function.update s.pc t c u) :=
  (Function.forall_update_iff s.pc fun _ d => Knows s.resolved s.signal d).mpr
    ⟨hc, fun u _ => hs.knows u⟩

theorem published_goto {s : State k} (hs : Published s) {t : Thread} {c : Pc}
    (hc : Knows s.resolved s.signal c) : Published (s.goto t c) :=
  ⟨knows_goto hs hc, hs.owned, hs.untouched, hs.served, hs.answered⟩

theorem published_call {s : State k} (hs : Published s) {t : Thread} {op : LockOp Unit} {c : Pc}
    (hc : Knows s.resolved s.signal c) : Published (s.call t op c) :=
  ⟨knows_goto hs hc, hs.owned, hs.untouched, hs.served, hs.answered⟩

theorem knows_entry (resolved signal : Option ℕ) (op : SignalOp) :
    Knows resolved signal (entry op) := by
  cases op <;> trivial

theorem knows_afterResolve {resolved signal r : Option ℕ} (op : SignalOp)
    (h : ∀ n, r = some n → resolved = some n) : Knows resolved signal (afterResolve op r) := by
  cases r with
  | none => trivial
  | some n => exact h n rfl

theorem published_inner {s : State k} (hs : Published s) (t : Thread) (m : Lock (mutex Thread)) :
    Published (s.afterStep t m) := by
  unfold State.afterStep
  split
  · refine ⟨knows_goto hs ?_, hs.owned, hs.untouched, hs.served, hs.answered⟩
    have before := hs.knows t
    cases hc : s.pc t with
    | unlockMutex op resolved =>
      rw [hc] at before
      cases resolved with
      | none => trivial
      | some n => exact before
    | lockMutex op => trivial
    | _ =>
      rw [hc] at before
      exact before
  · exact ⟨hs.knows, hs.owned, hs.untouched, hs.served, hs.answered⟩

/-- Only the holder of the mutex writes the signal, so nobody else's knowledge is touched. -/
theorem knows_critical {s : State k} (hg : Guarded s) (hs : Published s) {t : Thread} {b c : Pc}
    {resolved signal : Option ℕ} (hpc : s.pc t = b) (inside : b.Critical) (hr : s.resolved = none)
    (hc : Knows resolved signal c) :
    ∀ u, Knows resolved signal (Function.update s.pc t c u) := by
  refine (Function.forall_update_iff s.pc fun _ d => Knows resolved signal d).mpr
    ⟨hc, fun u hu => ?_⟩
  have before := hs.knows u
  have outside : ¬ (s.pc u).Critical := fun h => hu (hg.critical_unique h (hpc ▸ inside))
  cases hd : s.pc u with
  | callSignal op n =>
    rw [hd] at before
    cases hr.symm.trans before
  | idle | loadResolved _ | lockMutex _ | returnUnavailable _ | loadForInterrupt => trivial
  | _ =>
    rw [hd] at outside
    exact absurd trivial outside

theorem Published.knows_at {s : State k} (h : Published s) {t : Thread} {c : Pc}
    (hpc : s.pc t = c) : Knows s.resolved s.signal c :=
  hpc ▸ h.knows t

theorem published_created {s : State k} (hg : Guarded s) (hs : Published s) {t : Thread}
    {op : SignalOp} {p : ProviderId} {calls : List FactoryCall} (hpc : s.pc t = .callFactory op p)
    (hcalls : calls = s.factoryCalls ++ [⟨p, .createBinarySignal s.initiallySet⟩]) :
    Published { s.goto t (.storeResolved op calls.length) with
      signal := some calls.length
      objects := Function.update s.objects calls.length (k.create p s.initiallySet)
      factoryCalls := calls } := by
  have hr : s.resolved = none := hs.knows_at hpc
  refine ⟨knows_critical hg hs hpc trivial hr ⟨hr, rfl⟩, ?_, hs.untouched, ?_, hs.answered⟩
  · intro n hn
    cases hr.symm.trans hn
  · intro n hn
    have hlength : calls.length = n := Option.some.inj hn
    refine ⟨p, by rw [hcalls]; exact List.getLast?_concat, ?_⟩
    change run _ (k.create p s.initiallySet) (applied s.history) =
      some (Function.update s.objects calls.length (k.create p s.initiallySet) n)
    rw [hs.untouched hr, hlength, Function.update_self]
    rfl

theorem published_publish {s : State k} (hg : Guarded s) (hs : Published s) {t : Thread}
    {op : SignalOp} {n : ℕ} (hpc : s.pc t = .storeResolved op n) :
    Published (State.call { s with resolved := some n } t (.unlock ()) (.unlockMutex op (some n))) := by
  obtain ⟨hr, hsignal⟩ := hs.knows_at hpc
  refine ⟨knows_critical hg hs hpc trivial hr rfl, ?_, nofun, hs.served, ?_⟩
  · intro q hq
    exact hsignal.trans hq
  · exact answered_unresolved (hr ▸ hs.answered)

theorem published_performed {s : State k} (hs : Published s) {t : Thread} {op : SignalOp} {n : ℕ}
    {ret : PlatformResult} {after : k.State} (hpc : s.pc t = .callSignal op n)
    (h : k.perform (s.objects n) t op ret = some after) :
    Published { s.goto t .idle with
      objects := Function.update s.objects n after
      history := s.history ++ [⟨t, op, some n, ret⟩] } := by
  have hr : s.resolved = some n := hs.knows_at hpc
  refine ⟨knows_goto hs trivial, hs.owned, ?_, ?_, answered_append hs.answered hr⟩
  · intro hnone
    cases hr.symm.trans hnone
  · intro q hq
    have hqn : q = n := Option.some.inj (hq.symm.trans (hs.owned n hr))
    subst q
    obtain ⟨p, hlast, hrun⟩ := hs.served n (hs.owned n hr)
    refine ⟨p, hlast, ?_⟩
    change run _ (k.create p s.initiallySet) (applied (s.history ++ [⟨t, op, some n, ret⟩])) =
      some (Function.update s.objects n after n)
    rw [applied_append, Function.update_self]
    exact run_trans _ hrun ((run_singleton _ _ _).trans h)

theorem published_refused {s : State k} (hs : Published s) (t : Thread) (op : SignalOp) :
    Published { s.goto t .idle with history := s.history ++ [⟨t, op, none, unavailable⟩] } := by
  have same : applied (s.history ++ [⟨t, op, none, unavailable⟩]) = applied s.history := by
    rw [applied_append]
    exact List.append_nil _
  refine ⟨knows_goto hs trivial, hs.owned, ?_, ?_, answered_append hs.answered rfl⟩
  · intro hr
    exact same.trans (hs.untouched hr)
  · intro n hn
    obtain ⟨p, hlast, hrun⟩ := hs.served n hn
    exact ⟨p, hlast, by rw [← same] at hrun; exact hrun⟩

theorem published_step {s s' : State k} {a : Action Thread} (hg : Guarded s) (hs : Published s)
    (h : Step s a s') : Published s' := by
  cases h with
  | change c => exact ⟨hs.knows, hs.owned, hs.untouched, hs.served, hs.answered⟩
  | invoke hpc => exact published_goto hs (knows_entry _ _ _)
  | fastPath hpc hr => exact published_goto hs hr
  | lock hpc _ => exact published_call hs trivial
  | alreadyResolved hpc hr _ => exact published_call hs hr
  | unresolved hpc hr => exact published_goto hs hr
  | provided hpc _ =>
    have known := hs.knows_at hpc
    exact published_goto hs known
  | unprovided hpc _ _ => exact published_call hs trivial
  | publish hpc _ => exact published_publish hg hs hpc
  | interrupt hpc => exact published_goto hs (knows_afterResolve _ fun _ hr => hr)
  | refused hpc => exact published_refused hs _ _
  | inner _ _ => exact published_inner hs _ _
  | created hpc hcalls => exact published_created hg hs hpc hcalls
  | createdNull hpc _ =>
    have hr : s.resolved = none := hs.knows_at hpc
    refine ⟨knows_critical hg hs hpc trivial hr trivial, ?_, hs.untouched, nofun, hs.answered⟩
    intro n hn
    cases hr.symm.trans hn
  | performed hpc h => exact published_performed hs hpc h

def Settled (s s' : State k) : Prop :=
  s.resolved.isSome → s'.resolved = s.resolved ∧ s'.signal = s.signal ∧
    s'.factoryCalls = s.factoryCalls

theorem settled_step {s s' : State k} {a : Action Thread} (hs : Published s) (h : Step s a s') :
    Settled s s' := by
  intro published
  cases h with
  | inner _ _ =>
    unfold State.afterStep
    split <;> exact ⟨rfl, rfl, rfl⟩
  | publish hpc _ =>
    rw [(hs.knows_at hpc).1] at published
    cases published
  | created hpc _ | createdNull hpc _ =>
    have hr : s.resolved = none := hs.knows_at hpc
    rw [hr] at published
    cases published
  | _ => exact ⟨rfl, rfl, rfl⟩

def Invariant (initiallySet : Bool) (s : State k) : Prop :=
  Guarded s ∧ Published s ∧ s.initiallySet = initiallySet

theorem initial_invariant (storage : ProviderStorage) (initiallySet : Bool) :
    Invariant initiallySet (initial k storage initiallySet) := by
  have unlocked : Guarded (initial k storage initiallySet) :=
    ⟨LazyLock.initial_invariant _, fun _ => rfl⟩
  have unpublished : Published (initial k storage initiallySet) :=
    ⟨fun _ => trivial, nofun, fun _ => rfl, nofun, fun c hc => by cases hc⟩
  exact ⟨unlocked, unpublished, rfl⟩

theorem initiallySet_step {s s' : State k} {a : Action Thread} (h : Step s a s') :
    s'.initiallySet = s.initiallySet := by
  cases h with
  | inner _ _ =>
    unfold State.afterStep
    split <;> rfl
  | _ => rfl

theorem invariant_step {initiallySet : Bool} (s : State k) (a : Action Thread) (s' : State k)
    (hs : Invariant initiallySet s) (h : next s a = some s') : Invariant initiallySet s' := by
  have taken := step_cases h
  exact ⟨guarded_step hs.1 taken, published_step hs.1 hs.2.1 taken,
    (initiallySet_step taken).trans hs.2.2⟩

theorem settled_run {initiallySet : Bool} {s s' : State k} {as : List (Action Thread)}
    (hs : Invariant initiallySet s) (h : run next s as = some s') : Settled s s' := by
  refine relation_of_run (I := Invariant initiallySet) (fun _ _ => ⟨rfl, rfl, rfl⟩) ?_
    invariant_step (fun s a t hs h => settled_step hs.2.1 (step_cases h)) hs h
  intro s t u hst htu published
  obtain ⟨hr, hsignal, hcalls⟩ := hst published
  obtain ⟨hr', hsignal', hcalls'⟩ := htu (hr ▸ published)
  exact ⟨hr'.trans hr, hsignal'.trans hsignal, hcalls'.trans hcalls⟩

theorem binary_answers {s : State k} (hs : Published s) {isSet : k.State → Bool}
    (hk : Binary k isSet) :
    successfulWaits s.history ≤ s.initiallySet.toNat + successfulGives s.history := by
  unfold successfulWaits successfulGives
  rw [successes_applied hs.answered, successes_applied hs.answered]
  cases hr : s.resolved with
  | none =>
    rw [hs.untouched hr]
    exact Nat.zero_le _
  | some n =>
    obtain ⟨p, _, hrun⟩ := hs.served n (hs.owned n hr)
    exact binary_waits hk hrun

def flagSignal : SignalKind ℕ where
  State := Bool
  create := fun _ initiallySet => initiallySet
  perform := fun flag _ op ret => semaphorePerform flag (semaphoreOp op) ret.isSuccess

theorem flagSignal_binary : Binary flagSignal id :=
  ⟨fun _ _ => rfl, fun _ _ _ _ _ h => h⟩

/-- An interrupt gives while thread 0 resolves under the mutex and once more afterwards. -/
def interrupted : List (Action ℕ) :=
  [.invoke 0 .give, .advance 0, .mutexStep (.advance 0), .mutexStep (.advance 0),
    .mutexStep (.advance 0), .mutexStep (.advance 0), .mutexStep (.create 0 .exception),
    .mutexStep (.advance 0), .mutexStep (.advance 0), .mutexStep (.advance 0),
    .mutexStep (.perform 0 true), .advance 0, .advance 0,
    .invoke 1 .giveFromInterrupt, .advance 1, .advance 1,
    .create 0 .object, .advance 0, .mutexStep (.advance 0), .mutexStep (.perform 0 true),
    .perform 0 succeeded, .change .resetProvider, .invoke 2 (.wait waitForever), .advance 2,
    .perform 2 succeeded, .invoke 1 .giveFromInterrupt, .advance 1, .perform 1 succeeded]

end

end ESPressioSystem.DeferredSignal
