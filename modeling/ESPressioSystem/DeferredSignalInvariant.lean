import ESPressioSystem.DeferredSignal

set_option autoImplicit false
namespace ESPressioSystem.DeferredSignal
open Transition SharedObject SynchronizationProvider Platform Signal LazyLock Locks

section
variable {Thread : Type} [DecidableEq Thread] {k : SignalKind Thread}

def State.call (s : State k) (t : Thread) (op : LockOp Unit) (c : Pc) : State k :=
  { s.goto t c with mutex := s.mutex.goto t (.loadResolved op) }

def State.afterStep (s : State k) (t : Thread) (m : Lock (Locks.mutex Thread)) : State k :=
  match m.pc t with
  | .idle => { s.goto t (afterMutex (s.pc t)) with mutex := m }
  | _ => { s with mutex := m }

inductive Step (s : State k) : Action Thread → State k → Prop where
  | change (c : ProviderChange) : Step s (.change c) { s with storage := c.apply s.storage }
  | invoke {t : Thread} {op : SignalOp} (hpc : s.pc t = .idle) :
      Step s (.invoke t op) (s.goto t (entry op))
  | fastPath {t : Thread} {op : SignalOp} {n : ℕ} (hpc : s.pc t = .loadResolved op)
      (h : s.resolved = some n) : Step s (.advance t) (s.goto t (.callSignal op n))
  | lock {t : Thread} {op : SignalOp} (hpc : s.pc t = .loadResolved op)
      (free : s.mutex.pc t = .idle) : Step s (.advance t) (s.call t (.lock ()) (.lockMutex op))
  | alreadyResolved {t : Thread} {op : SignalOp} {n : ℕ} (hpc : s.pc t = .reloadResolved op)
      (h : s.resolved = some n) (free : s.mutex.pc t = .idle) :
      Step s (.advance t) (s.call t (.unlock ()) (.unlockMutex op (some n)))
  | unresolved {t : Thread} {op : SignalOp} (hpc : s.pc t = .reloadResolved op)
      (h : s.resolved = none) : Step s (.advance t) (s.goto t (.loadProvider op))
  | provided {t : Thread} {op : SignalOp} {p : ProviderId} (hpc : s.pc t = .loadProvider op)
      (h : provider s.storage = some p) : Step s (.advance t) (s.goto t (.callFactory op p))
  | unprovided {t : Thread} {op : SignalOp} (hpc : s.pc t = .loadProvider op)
      (h : provider s.storage = none) (free : s.mutex.pc t = .idle) :
      Step s (.advance t) (s.call t (.unlock ()) (.unlockMutex op none))
  | publish {t : Thread} {op : SignalOp} {n : ℕ} (hpc : s.pc t = .storeResolved op n)
      (free : s.mutex.pc t = .idle) : Step s (.advance t)
        (State.call { s with resolved := some n } t (.unlock ()) (.unlockMutex op (some n)))
  | interrupt {t : Thread} (hpc : s.pc t = .loadForInterrupt) :
      Step s (.advance t) (s.goto t (afterResolve .giveFromInterrupt s.resolved))
  | refused {t : Thread} {op : SignalOp} (hpc : s.pc t = .returnUnavailable op) :
      Step s (.advance t)
        { s.goto t .idle with history := s.history ++ [⟨t, op, none, unavailable⟩] }
  | inner {a : LazyLock.Action (mutex Thread)} {m : Lock (mutex Thread)}
      (called : ∀ t op, a ≠ .invoke t op) (h : LazyLock.Step s.storage s.mutex a m) :
      Step s (.mutexStep a) (s.afterStep (actor a) m)
  | created {t : Thread} {op : SignalOp} {p : ProviderId} {calls : List FactoryCall}
      (hpc : s.pc t = .callFactory op p)
      (hcalls : calls = s.factoryCalls ++ [⟨p, .createBinarySignal s.initiallySet⟩]) :
      Step s (.create t .object) { s.goto t (.storeResolved op calls.length) with
        signal := some calls.length
        objects := Function.update s.objects calls.length (k.create p s.initiallySet)
        factoryCalls := calls }
  | createdNull {t : Thread} {op : SignalOp} {p : ProviderId} (hpc : s.pc t = .callFactory op p)
      (free : s.mutex.pc t = .idle) :
      Step s (.create t .null) (State.call { s with
        signal := none
        factoryCalls := s.factoryCalls ++ [⟨p, .createBinarySignal s.initiallySet⟩] }
          t (.unlock ()) (.unlockMutex op none))
  | performed {t : Thread} {op : SignalOp} {n : ℕ} {ret : PlatformResult} {after : k.State}
      (hpc : s.pc t = .callSignal op n) (h : k.perform (s.objects n) t op ret = some after) :
      Step s (.perform t ret) { s.goto t .idle with
        objects := Function.update s.objects n after
        history := s.history ++ [⟨t, op, some n, ret⟩] }

theorem callMutex_cases {s s' : State k} {t : Thread} {op : LockOp Unit} {c : Pc}
    (h : callMutex s t op c = some s') : s.mutex.pc t = .idle ∧ s' = s.call t op c := by
  obtain ⟨m, hm, rfl⟩ := Option.map_eq_some_iff.mp h
  simp only [LazyLock.invoke] at hm
  split at hm
  · rename_i free
    exact ⟨free, by rw [← Option.some.inj hm]; rfl⟩
  · cases hm

theorem advance_cases {s s' : State k} {t : Thread} (h : advance s t = some s') :
    Step s (.advance t) s' := by
  unfold advance at h
  cases hpc : s.pc t with
  | idle | lockMutex _ | callFactory _ _ | unlockMutex _ _ | callSignal _ _ => simp [hpc] at h
  | loadResolved op =>
    simp only [hpc] at h
    cases hr : s.resolved with
    | some n =>
      simp only [hr, Option.some.injEq] at h
      exact h ▸ .fastPath hpc hr
    | none =>
      simp only [hr] at h
      obtain ⟨free, rfl⟩ := callMutex_cases h
      exact .lock hpc free
  | reloadResolved op =>
    simp only [hpc] at h
    cases hr : s.resolved with
    | some n =>
      simp only [hr] at h
      obtain ⟨free, rfl⟩ := callMutex_cases h
      exact .alreadyResolved hpc hr free
    | none =>
      simp only [hr, Option.some.injEq] at h
      exact h ▸ .unresolved hpc hr
  | loadProvider op =>
    simp only [hpc] at h
    cases hp : provider s.storage with
    | some p =>
      simp only [hp, Option.some.injEq] at h
      exact h ▸ .provided hpc hp
    | none =>
      simp only [hp] at h
      obtain ⟨free, rfl⟩ := callMutex_cases h
      exact .unprovided hpc hp free
  | storeResolved op n =>
    simp only [hpc] at h
    obtain ⟨free, rfl⟩ := callMutex_cases h
    exact .publish hpc free
  | loadForInterrupt =>
    simp only [hpc, Option.some.injEq] at h
    exact h ▸ .interrupt hpc
  | returnUnavailable op =>
    simp only [hpc, Option.some.injEq] at h
    exact h ▸ .refused hpc

theorem mutexStep_cases {s s' : State k} {a : LazyLock.Action (mutex Thread)}
    (h : mutexStep s a = some s') : Step s (.mutexStep a) s' := by
  cases a with
  | invoke t op => cases h
  | advance t | create t outcome | perform t ret =>
    obtain ⟨m, hm, rfl⟩ := Option.map_eq_some_iff.mp h
    exact .inner nofun (LazyLock.step_cases hm)

theorem create_cases {s s' : State k} {t : Thread} {outcome : Outcome}
    (h : create s t outcome = some s') : Step s (.create t outcome) s' := by
  unfold create at h
  split at h
  · rename_i op p hpc
    cases outcome with
    | object => exact Option.some.inj h ▸ .created hpc rfl
    | null =>
      obtain ⟨free, rfl⟩ := callMutex_cases h
      exact .createdNull hpc free
    | exception => cases h
  · cases h

theorem step_cases {s s' : State k} {a : Action Thread} (h : next s a = some s') : Step s a s' := by
  cases a with
  | change c => exact Option.some.inj h ▸ .change c
  | invoke t op =>
    simp only [next, invoke] at h
    split at h
    · rename_i hpc
      exact Option.some.inj h ▸ .invoke hpc
    · cases h
  | advance t => exact advance_cases h
  | mutexStep a => exact mutexStep_cases h
  | create t outcome => exact create_cases h
  | perform t ret =>
    simp only [next, perform] at h
    split at h
    · rename_i hpc
      obtain ⟨after, hafter, rfl⟩ := Option.map_eq_some_iff.mp h
      exact .performed hpc hafter
    · cases h

end

/-- The thread holds the mutex of the signal. -/
def Pc.Critical : Pc → Prop
  | .reloadResolved _ | .loadProvider _ | .callFactory _ _ | .storeResolved _ _
  | .unlockMutex _ _ => True
  | .idle | .loadResolved _ | .lockMutex _ | .callSignal _ _ | .returnUnavailable _
  | .loadForInterrupt => False

section
variable {Thread : Type} [DecidableEq Thread] {k : SignalKind Thread}

/-- What the mutex is doing for a thread at its program point. -/
def Phase (m : Lock (mutex Thread)) (t : Thread) : Pc → Prop
  | .lockMutex _ => pending (m.pc t) = some (LockOp.lock ())
  | .unlockMutex _ _ => pending (m.pc t) = some (LockOp.unlock ()) ∧ Holds m.history t ()
  | .reloadResolved _ | .loadProvider _ | .callFactory _ _ | .storeResolved _ _ =>
    m.pc t = .idle ∧ Holds m.history t ()
  | .idle | .loadResolved _ | .callSignal _ _ | .returnUnavailable _ | .loadForInterrupt =>
    m.pc t = .idle

structure Guarded (s : State k) : Prop where
  mutex : LazyLock.Invariant s.mutex
  phase : ∀ t, Phase s.mutex t (s.pc t)

theorem phase_congr {m m' : Lock (mutex Thread)} {t : Thread} {c : Pc} (hpc : m'.pc t = m.pc t)
    (held : Holds m'.history t () ↔ Holds m.history t ()) (h : Phase m t c) : Phase m' t c := by
  cases c <;> simp only [Phase, hpc, held] at h ⊢ <;> exact h

theorem phase_update {m m' : Lock (mutex Thread)} {pc : Thread → Pc} {t : Thread} {c : Pc}
    (h : ∀ u, Phase m u (pc u)) (moved : Phase m' t c)
    (other : ∀ u, u ≠ t → m'.pc u = m.pc u ∧ (Holds m'.history u () ↔ Holds m.history u ())) :
    ∀ u, Phase m' u (Function.update pc t c u) := by
  refine (Function.forall_update_iff pc fun u d => Phase m' u d).mpr ⟨moved, fun u hu => ?_⟩
  exact phase_congr (other u hu).1 (other u hu).2 (h u)

theorem holds_of_critical {m : Lock (mutex Thread)} {t : Thread} {c : Pc} (h : Phase m t c)
    (hc : c.Critical) : Holds m.history t () := by
  cases c with
  | reloadResolved _ | loadProvider _ | callFactory _ _ | storeResolved _ _ | unlockMutex _ _ =>
    exact h.2
  | _ => exact absurd hc id

theorem releasesHeld_of_phase {m : Lock (mutex Thread)} {pc : Thread → Pc}
    (h : ∀ t, Phase m t (pc t)) : ReleasesHeld m := by
  intro t mode hop
  have ht := h t
  cases hc : pc t with
  | lockMutex op =>
    rw [hc] at ht
    cases hop.symm.trans ht
  | unlockMutex op resolved =>
    rw [hc] at ht
    exact ht.2
  | reloadResolved _ | loadProvider _ | callFactory _ _ | storeResolved _ _ =>
    rw [hc] at ht
    rw [ht.1] at hop
    cases hop
  | idle | loadResolved _ | callSignal _ _ | returnUnavailable _ | loadForInterrupt =>
    rw [hc] at ht
    rw [ht] at hop
    cases hop

theorem Guarded.single {s : State k} (h : Guarded s) : SingleLock s.mutex :=
  singleLock_of_invariant h.mutex (releasesHeld_of_phase h.phase)

theorem Guarded.critical_unique {s : State k} (h : Guarded s) {t u : Thread}
    (ht : (s.pc t).Critical) (hu : (s.pc u).Critical) : t = u :=
  mutex_exclusion h.single (holds_of_critical (h.phase t) ht) (holds_of_critical (h.phase u) hu)

theorem guarded_goto {s : State k} (h : Guarded s) {t : Thread} {c : Pc}
    (hc : Phase s.mutex t c) : ∀ u, Phase s.mutex u (Function.update s.pc t c u) :=
  phase_update h.phase hc fun _ _ => ⟨rfl, Iff.rfl⟩

theorem guarded_call {s : State k} (h : Guarded s) {t : Thread} {op : LockOp Unit} {c : Pc}
    (free : s.mutex.pc t = .idle)
    (hc : Phase (s.mutex.goto t (.loadResolved op)) t c) : Guarded (s.call t op c) where
  mutex := by
    have invoked : LazyLock.Step none s.mutex (.invoke t op) (s.mutex.goto t (.loadResolved op)) :=
      .invoke free
    exact LazyLock.step_invariant h.mutex invoked
  phase := phase_update h.phase hc fun _ hu => ⟨Function.update_of_ne hu _ _, Iff.rfl⟩

theorem phase_lock {m : Lock (mutex Thread)} {t : Thread} {op : SignalOp} :
    Phase (m.goto t (.loadResolved (LockOp.lock ()))) t (.lockMutex op) := by
  simp only [Phase, Lock.goto, Function.update_self, pending]
  rfl

theorem phase_unlock {m : Lock (mutex Thread)} {t : Thread} {op : SignalOp} {resolved : Option ℕ}
    (held : Holds m.history t ()) :
    Phase (m.goto t (.loadResolved (LockOp.unlock ()))) t (.unlockMutex op resolved) := by
  simp only [Phase, Lock.goto, Function.update_self, pending]
  exact ⟨rfl, held⟩

theorem phase_entry {m : Lock (mutex Thread)} {t : Thread} (free : m.pc t = .idle) (op : SignalOp) :
    Phase m t (entry op) := by
  cases op <;> exact free

theorem phase_afterResolve {m : Lock (mutex Thread)} {t : Thread} (free : m.pc t = .idle)
    (op : SignalOp) (resolved : Option ℕ) : Phase m t (afterResolve op resolved) := by
  cases resolved <;> exact free

theorem afterStep_idle {s : State k} {t : Thread} {m : Lock (mutex Thread)} (h : m.pc t = .idle) :
    s.afterStep t m = { s.goto t (afterMutex (s.pc t)) with mutex := m } := by
  simp only [State.afterStep, h]

theorem afterStep_busy {s : State k} {t : Thread} {m : Lock (mutex Thread)} {op : LockOp Unit}
    (h : pending (m.pc t) = some op) : s.afterStep t m = { s with mutex := m } := by
  cases hc : m.pc t <;> simp_all only [State.afterStep, pending, reduceCtorEq]

theorem phase_pending {m m' : Lock (mutex Thread)} {t : Thread} {c : Pc} {op : LockOp Unit}
    (before : pending (m.pc t) = some op) (after : pending (m'.pc t) = some op)
    (same : m'.history = m.history) (h : Phase m t c) : Phase m' t c := by
  cases c with
  | lockMutex _ => exact after.trans (before.symm.trans h)
  | unlockMutex _ _ => exact ⟨after.trans (before.symm.trans h.1), same ▸ h.2⟩
  | reloadResolved _ | loadProvider _ | callFactory _ _ | storeResolved _ _ =>
    rw [h.1] at before
    cases before
  | idle | loadResolved _ | callSignal _ _ | returnUnavailable _ | loadForInterrupt =>
    rw [show m.pc t = .idle from h] at before
    cases before

theorem phase_returned {m m' : Lock (mutex Thread)} {t : Thread} {c : Pc} {op : LockOp Unit}
    {ret : Bool} (before : pending (m.pc t) = some op) (free : m'.pc t = .idle)
    (grown : m'.history = m.history ++ [⟨t, op, ret⟩]) (single : SingleLock m')
    (h : Phase m t c) : Phase m' t (afterMutex c) := by
  cases c with
  | lockMutex _ =>
    have hop : op = .lock () := Option.some.inj (before.symm.trans h)
    have legal := single.legal
    rw [grown, hop] at legal
    refine ⟨free, ?_⟩
    rw [grown, hop]
    exact holds_after_lock legal
  | unlockMutex op resolved => exact phase_afterResolve free op resolved
  | reloadResolved _ | loadProvider _ | callFactory _ _ | storeResolved _ _ =>
    rw [h.1] at before
    cases before
  | idle | loadResolved _ | callSignal _ _ | returnUnavailable _ | loadForInterrupt =>
    rw [show m.pc t = .idle from h] at before
    cases before

theorem guarded_inner {s : State k} {a : LazyLock.Action (mutex Thread)} {m : Lock (mutex Thread)}
    (hs : Guarded s) (called : ∀ t op, a ≠ .invoke t op) (h : LazyLock.Step s.storage s.mutex a m) :
    Guarded (s.afterStep (actor a) m) := by
  have invariant := LazyLock.step_invariant hs.mutex h
  have single : SingleLock m := singleLock_of_invariant invariant
    (releasesHeld_step (releasesHeld_of_phase hs.phase) (fun t _ hinv => absurd hinv (called t _)) h)
  obtain ⟨op, hop⟩ := step_active called h
  rcases call_cases h hop with ⟨busy, same⟩ | ⟨idle, ret, grown⟩
  · rw [afterStep_busy busy]
    refine ⟨invariant, ?_⟩
    have moved := phase_pending hop busy same (hs.phase (actor a))
    have phase := phase_update hs.phase moved fun u hu => ⟨step_pc_other h hu, by rw [same]⟩
    rwa [Function.update_eq_self] at phase
  · rw [afterStep_idle idle]
    refine ⟨invariant, phase_update hs.phase ?_ fun u hu => ⟨step_pc_other h hu, ?_⟩⟩
    · exact phase_returned hop idle grown single (hs.phase (actor a))
    · rw [grown]
      exact holds_append_other hu op ret ()

theorem Guarded.phase_at {s : State k} (h : Guarded s) {t : Thread} {c : Pc} (hpc : s.pc t = c) :
    Phase s.mutex t c :=
  hpc ▸ h.phase t

theorem guarded_step {s s' : State k} {a : Action Thread} (hs : Guarded s) (h : Step s a s') :
    Guarded s' := by
  cases h with
  | change c => exact ⟨hs.mutex, hs.phase⟩
  | invoke hpc => exact ⟨hs.mutex, guarded_goto hs (phase_entry (hs.phase_at hpc) _)⟩
  | fastPath hpc _ | unresolved hpc _ | provided hpc _ | refused hpc | created hpc _
  | performed hpc _ =>
    have here := hs.phase_at hpc
    exact ⟨hs.mutex, guarded_goto hs here⟩
  | lock hpc free => exact guarded_call hs free phase_lock
  | alreadyResolved hpc _ free | unprovided hpc _ free =>
    exact guarded_call hs free (phase_unlock (hs.phase_at hpc).2)
  | publish hpc free =>
    have stored : ∀ r, Guarded { s with resolved := r } := fun _ => ⟨hs.mutex, hs.phase⟩
    exact guarded_call (stored _) free (phase_unlock (hs.phase_at hpc).2)
  | interrupt hpc => exact ⟨hs.mutex, guarded_goto hs (phase_afterResolve (hs.phase_at hpc) _ _)⟩
  | inner called h => exact guarded_inner hs called h
  | createdNull hpc free =>
    have cleared : ∀ calls, Guarded { s with signal := none, factoryCalls := calls } :=
      fun _ => ⟨hs.mutex, hs.phase⟩
    exact guarded_call (cleared _) free (phase_unlock (hs.phase_at hpc).2)

end

end ESPressioSystem.DeferredSignal
