import ESPressioSystem.DeferredSignalPublication
import ESPressioSystem.LazyLockProgress

set_option autoImplicit false

/-!
# `Resolve` of a deferred signal returns, if the platform's mutex is fair
-/
namespace ESPressioSystem.DeferredSignalProgress
open Transition Ledger SharedObject SynchronizationProvider Platform Signal Locks DeferredSignal
  Progress
open LazyLock (Lock Pointer)
open LazyLockProgress (Resolving Calls Reached calls_reach resolving_step)

def resolving : Pc → Option SignalOp
  | .loadResolved op | .lockMutex op | .reloadResolved op | .loadProvider op | .callFactory op _
  | .storeResolved op _ | .unlockMutex op _ => some op
  | .idle | .callSignal _ _ | .returnUnavailable _ | .loadForInterrupt => none

section
variable {Thread : Type} [DecidableEq Thread]

theorem not_holds_after_unlock {history : List (Call Thread (LockOp Unit) Bool)} {t : Thread}
    {ret : Bool} (h : (mutex Thread).primitive.Legal (history ++ [⟨t, .unlock (), ret⟩])) :
    ¬ Holds (history ++ [⟨t, .unlock (), ret⟩]) t () := by
  obtain ⟨held, held', hheld, hlast, hrun⟩ := legal_append h
  rw [holds_iff_mem hrun]
  cases ret with
  | false => cases hlast
  | true =>
    have released : post admitsExclusive held (.release (t, ())) = some held' := hlast
    obtain ⟨hmem, rfl⟩ := post_release released
    have only := exclusive_single (run_lock_entries hheld) (t, ()) hmem
    have nothing : held' = 0 := ((Multiset.singleton_eq_cons_iff held').mp only.symm).2
    rw [nothing]
    exact Multiset.notMem_zero _

end

section
variable {Thread : Type} [DecidableEq Thread] {k : SignalKind Thread}

/-- The mutex is held by no thread but the one that is inside its critical section. -/
structure Sound (s : State k) : Prop where
  guarded : Guarded s
  held : ∀ t, Holds s.mutex.history t () → (s.pc t).Critical

variable {s s' : State k} {a : Action Thread} {t u : Thread} {op : SignalOp}
  {c : Pc}

theorem resolving_at (hpc : s.pc t = c) (h : resolving c = some op) :
    resolving (s.pc t) = some op := by
  rw [hpc, h]

theorem Sound.not_held (hs : Sound s) (hpc : s.pc t = c) (outside : ¬ c.Critical) :
    ¬ Holds s.mutex.history t () :=
  fun h => outside (hpc ▸ hs.held t h)

theorem held_goto (hs : Sound s) (hc : Holds s.mutex.history t () → c.Critical) :
    ∀ u, Holds s.mutex.history u () → (Function.update s.pc t c u).Critical :=
  (Function.forall_update_iff s.pc fun u d => Holds s.mutex.history u () → d.Critical).mpr
    ⟨hc, fun u _ => hs.held u⟩

theorem held_inner (hs : Sound s) {b : LazyLock.Action (mutex Thread)} {m : Lock (mutex Thread)}
    (called : ∀ t op, b ≠ .invoke t op) (h : LazyLock.Step s.storage s.mutex b m) :
    ∀ u, Holds (s.afterStep (actor b) m).mutex.history u () →
      ((s.afterStep (actor b) m).pc u).Critical := by
  have legal := (guarded_inner hs.guarded called h).single.legal
  obtain ⟨op, hop⟩ := step_active called h
  rcases call_cases h hop with ⟨busy, same⟩ | ⟨idle, ret, grown⟩
  · rw [afterStep_busy busy]
    intro u hu
    exact hs.held u (same ▸ hu)
  · rw [afterStep_idle idle] at legal ⊢
    refine (Function.forall_update_iff s.pc fun u d => Holds m.history u () → d.Critical).mpr
      ⟨fun held => ?_, fun u hu held => ?_⟩
    · have here := hs.guarded.phase (actor b)
      cases hc : s.pc (actor b) with
      | lockMutex _ => trivial
      | unlockMutex _ _ =>
        rw [hc] at here
        have hop' : op = .unlock () := Option.some.inj (hop.symm.trans here.1)
        subst hop'
        rw [grown] at legal held
        exact absurd held (not_holds_after_unlock legal)
      | reloadResolved _ | loadProvider _ | callFactory _ _ | storeResolved _ _ =>
        rw [hc] at here
        rw [here.1] at hop
        cases hop
      | idle | loadResolved _ | callSignal _ _ | returnUnavailable _ | loadForInterrupt =>
        rw [hc] at here
        rw [show s.mutex.pc (actor b) = .idle from here] at hop
        cases hop
    · rw [grown] at held
      exact hs.held u ((holds_append_other hu op ret ()).mp held)

theorem sound_step (hs : Sound s) (h : Step s a s') : Sound s' := by
  refine ⟨guarded_step hs.guarded h, ?_⟩
  cases h with
  | change c => exact hs.held
  | invoke hpc | fastPath hpc _ | lock hpc _ | interrupt hpc | refused hpc | performed hpc _ =>
    exact held_goto hs fun held => absurd held (hs.not_held hpc id)
  | alreadyResolved hpc _ _ | unresolved hpc _ | provided hpc _ | unprovided hpc _ _
  | publish hpc _ | created hpc _ | createdNull hpc _ => exact held_goto hs fun _ => trivial
  | inner called h => exact held_inner hs called h

theorem sound_next (hs : Sound s) (h : next s a = some s') : Sound s' :=
  sound_step hs (step_cases h)

theorem initial_sound (storage : ProviderStorage) (initiallySet : Bool) :
    Sound (initial k storage initiallySet) := by
  refine ⟨(initial_invariant storage initiallySet).1, fun t held => ?_⟩
  exact absurd held (Nat.lt_irrefl 0)

/-- A step of the thread inside `Resolve`, the calls of the mutex included. -/
def OwnStep (t : Thread) : Action Thread → Prop
  | .advance u | .create u _ => u = t
  | .mutexStep b => actor b = t
  | .change _ | .invoke _ _ | .perform _ _ => False

/-- The thread is inside `Resolve` and does not have to wait there. -/
def Able (t : Thread) (s : State k) : Prop :=
  (resolving (s.pc t)).isSome ∧ ∃ a, OwnStep t a ∧ (next s a).isSome

theorem mutexStep_isSome {b : LazyLock.Action (mutex Thread)} (called : ∀ t op, b ≠ .invoke t op)
    (h : (LazyLock.step s.storage s.mutex b).isSome) : (next s (.mutexStep b)).isSome := by
  cases b with
  | invoke u op => exact absurd rfl (called u op)
  | advance _ | create _ _ | perform _ _ => simpa [next, mutexStep] using h

theorem able_mutexStep (inside : resolving (s.pc t) = some op)
    {b : LazyLock.Action (mutex Thread)} (mine : actor b = t) (called : ∀ t op, b ≠ .invoke t op)
    (h : (LazyLock.step s.storage s.mutex b).isSome) : Able t s :=
  ⟨Option.isSome_of_mem inside, .mutexStep b, mine, mutexStep_isSome called h⟩

theorem able_of_resolving (inside : resolving (s.pc t) = some op)
    (hpc : Resolving (s.mutex.pc t)) : Able t s := by
  cases hm : s.mutex.pc t with
  | idle | callPrimitive _ _ =>
    rw [hm] at hpc
    exact absurd hpc (Nat.lt_irrefl 0)
  | callFactory op' p =>
    refine able_mutexStep inside (b := .create t .null) rfl (fun _ _ => by simp) ?_
    simp [LazyLock.step, LazyLock.create, hm]
  | loadResolved op' =>
    refine able_mutexStep inside (b := .advance t) rfl (fun _ _ => by simp) ?_
    cases hr : s.mutex.resolved <;> simp [LazyLock.step, LazyLock.advance, hm, hr]
  | testAndSet op' =>
    refine able_mutexStep inside (b := .advance t) rfl (fun _ _ => by simp) ?_
    cases hg : s.mutex.resolutionGuard <;> simp [LazyLock.step, LazyLock.advance, hm, hg]
  | reloadResolved op' =>
    refine able_mutexStep inside (b := .advance t) rfl (fun _ _ => by simp) ?_
    cases hr : s.mutex.resolved <;> simp [LazyLock.step, LazyLock.advance, hm, hr]
  | loadProvider op' =>
    refine able_mutexStep inside (b := .advance t) rfl (fun _ _ => by simp) ?_
    cases hp : provider s.storage <;> simp [LazyLock.step, LazyLock.advance, hm, hp]
  | selectPrimitive _ | storeResolved _ _ | clearGuard _ _ =>
    refine able_mutexStep inside (b := .advance t) rfl (fun _ _ => by simp) ?_
    simp [LazyLock.step, LazyLock.advance, hm]

theorem perform_isSome {m : Lock (mutex Thread)} {o : LockOp Unit} {p : Pointer} {ret : Bool}
    (hpc : m.pc t = .callPrimitive o p)
    (h : (lockPerform admitsExclusive (m.objects p) t o ret).isSome) (storage : ProviderStorage) :
    (LazyLock.step storage m (.perform t ret)).isSome := by
  simp only [LazyLock.step, LazyLock.perform, hpc, Option.isSome_map]
  exact h

theorem able_unlock (hs : Sound s) (inside : resolving (s.pc t) = some op) {p : Pointer}
    (hpc : s.mutex.pc t = .callPrimitive (LockOp.unlock ()) p) : Able t s := by
  have released : (lockPerform admitsExclusive (s.mutex.objects p) t (.unlock ()) true).isSome :=
    hs.guarded.single.release t () p hpc
  exact able_mutexStep inside (b := .perform t true) rfl (fun _ _ => by simp)
    (perform_isSome hpc released _)

theorem able_lock (hs : Sound s) (inside : resolving (s.pc t) = some op) {p : Pointer}
    (hpc : s.mutex.pc t = .callPrimitive (LockOp.lock ()) p) (free : ∀ u, ¬ (s.pc u).Critical) :
    Able t s := by
  have single := hs.guarded.mutex.single p (hs.guarded.mutex.knows_at hpc)
  have nothing : s.mutex.objects p = (0 : Multiset (Thread × Unit)) := by
    refine Multiset.eq_zero_of_forall_notMem fun ⟨u, ()⟩ held => ?_
    exact free u (hs.held u ((holds_iff_mem single u ()).mpr held))
  have granted : (lockPerform admitsExclusive (s.mutex.objects p) t (.lock ()) true).isSome := by
    rw [nothing]
    rfl
  exact able_mutexStep inside (b := .perform t true) rfl (fun _ _ => by simp)
    (perform_isSome hpc granted _)

theorem callMutex_isSome (free : s.mutex.pc t = .idle) (op : LockOp Unit) :
    (callMutex s t op c).isSome := by
  simp [callMutex, LazyLock.invoke, free]

/-- Outside the calls of the mutex nothing keeps a thread from its next step. -/
theorem able_of_idle (hs : Sound s) (inside : resolving (s.pc t) = some op)
    (free : s.mutex.pc t = .idle) : Able t s := by
  have inside' : (resolving (s.pc t)).isSome := Option.isSome_of_mem inside
  have here := hs.guarded.phase t
  cases hpc : s.pc t with
  | idle | callSignal _ _ | returnUnavailable _ | loadForInterrupt =>
    rw [hpc] at inside
    cases inside
  | lockMutex _ =>
    rw [hpc, Phase, free] at here
    cases here
  | unlockMutex _ _ =>
    rw [hpc, Phase, free] at here
    cases here.1
  | loadResolved _ =>
    refine ⟨inside', .advance t, rfl, ?_⟩
    cases hr : s.resolved <;> simp [next, advance, hpc, hr, callMutex_isSome free]
  | reloadResolved _ =>
    refine ⟨inside', .advance t, rfl, ?_⟩
    cases hr : s.resolved <;> simp [next, advance, hpc, hr, callMutex_isSome free]
  | loadProvider _ =>
    refine ⟨inside', .advance t, rfl, ?_⟩
    cases hp : provider s.storage <;> simp [next, advance, hpc, hp, callMutex_isSome free]
  | callFactory _ p =>
    refine ⟨inside', .create t .object, rfl, ?_⟩
    simp [next, create, hpc]
  | storeResolved _ n =>
    refine ⟨inside', .advance t, rfl, ?_⟩
    simp only [next, advance, hpc]
    exact callMutex_isSome (s := { s with resolved := some n }) free _

/-- Nothing but its own steps moves a thread that is inside `Resolve`. -/
theorem other_step (h : next s a = some s') (inside : resolving (s.pc t) = some op)
    (other : ¬ OwnStep t a) : s'.pc t = s.pc t ∧ s'.mutex.pc t = s.mutex.pc t := by
  have elsewhere : ∀ {u : Thread} {c : Pc}, s.pc u = c → resolving c = none → t ≠ u := by
    intro u c hpc hc same
    rw [same, hpc, hc] at inside
    cases inside
  have taken := step_cases h
  cases taken with
  | change c => exact ⟨rfl, rfl⟩
  | invoke hpc | performed hpc _ =>
    exact ⟨Function.update_of_ne (elsewhere hpc rfl) _ _, rfl⟩
  | fastPath _ _ | unresolved _ _ | provided _ _ | interrupt _ | refused _ | created _ _ =>
    exact ⟨Function.update_of_ne (fun same => other same.symm) _ _, rfl⟩
  | lock _ _ | alreadyResolved _ _ _ | unprovided _ _ _ | publish _ _ | createdNull _ _ =>
    have ht := fun same : t = _ => other same.symm
    exact ⟨Function.update_of_ne ht _ _, Function.update_of_ne ht _ _⟩
  | @inner b m called acted =>
    have ht : t ≠ actor b := fun same => other same.symm
    have kept := step_pc_other acted ht
    obtain ⟨o, hop⟩ := step_active called acted
    rcases call_cases acted hop with ⟨busy, _⟩ | ⟨idle, _⟩
    · rw [afterStep_busy busy]
      exact ⟨rfl, kept⟩
    · rw [afterStep_idle idle]
      exact ⟨Function.update_of_ne ht _ _, kept⟩

def mutexWorld (s : State k) : World (mutex Thread) := ⟨s.storage, s.mutex⟩

theorem mutexStep_act {b : LazyLock.Action (mutex Thread)} (h : mutexStep s b = some s') :
    worldNext (mutexWorld s) (.act b) = some (mutexWorld s') := by
  cases b with
  | invoke _ _ => cases h
  | advance _ | create _ _ | perform _ _ =>
    obtain ⟨m, hm, rfl⟩ := Option.map_eq_some_iff.mp h
    refine Option.map_eq_some_iff.mpr ⟨m, hm, ?_⟩
    split <;> rfl

/-- What a step means for the mutex: its own steps are taken by it, a call of the signal's is
an invocation, and in all others it sees at most a change of the provider. -/
theorem mutex_step (h : next s a = some s') :
    ∃ b, (∀ c, a = .mutexStep c → b = .act c) ∧
      worldNext (mutexWorld s) b = some (mutexWorld s') := by
  have still : ∀ {s s' : State k}, s'.storage = s.storage → s'.mutex = s.mutex →
      worldNext (mutexWorld s) (.change (.setProvider s.storage)) = some (mutexWorld s') := by
    intro s s' storage mutex
    simp only [worldNext, mutexWorld, ProviderChange.apply, setProvider, storage, mutex]
  have called : ∀ {s s' : State k} {t : Thread} {o : LockOp Unit} {c : Pc},
      s.mutex.pc t = .idle → s' = s.call t o c →
      worldNext (mutexWorld s) (.act (.invoke t o)) = some (mutexWorld s') := by
    intro s s' t o c free same
    simp only [worldNext, LazyLock.step, LazyLock.invoke, mutexWorld, free, same]
    rfl
  have taken := step_cases h
  cases taken with
  | change c => exact ⟨.change c, (fun c hc => by cases hc), rfl⟩
  | invoke _ | fastPath _ _ | unresolved _ _ | provided _ _ | interrupt _ | refused _
  | created _ _ | performed _ _ => exact ⟨_, (fun c hc => by cases hc), still rfl rfl⟩
  | lock _ free | alreadyResolved _ _ free | unprovided _ _ free =>
    exact ⟨_, (fun c hc => by cases hc), called free rfl⟩
  | publish _ free =>
    exact ⟨_, (fun c hc => by cases hc), called (s := { s with resolved := some _ }) free rfl⟩
  | createdNull _ free =>
    exact ⟨_, (fun c hc => by cases hc),
      called (s := { s with signal := none, factoryCalls := _ }) free rfl⟩
  | @inner b _ _ _ =>
    exact ⟨.act b, fun c hc => congrArg _ (Action.mutexStep.inj hc), mutexStep_act h⟩

theorem own_mutexStep (hs : Sound s) (h : next s a = some s') (busy : s.mutex.pc t ≠ .idle)
    (own : OwnStep t a) : ∃ b m, a = .mutexStep b ∧ actor b = t ∧ (∀ u o, b ≠ .invoke u o) ∧
      LazyLock.Step s.storage s.mutex b m ∧ s' = s.afterStep t m := by
  have elsewhere : ∀ {u : Thread} {c : Pc}, s.pc u = c → OwnStep t (.advance u : Action Thread) →
      (Phase s.mutex u c → s.mutex.pc u = .idle) → False := by
    rintro u c hpc rfl idle
    exact busy (idle (hs.guarded.phase_at hpc))
  have taken := step_cases h
  cases taken with
  | change _ | invoke _ | performed _ _ => exact own.elim
  | fastPath hpc _ | lock hpc _ | interrupt hpc | refused hpc => exact (elsewhere hpc own id).elim
  | alreadyResolved hpc _ _ | unresolved hpc _ | provided hpc _ | unprovided hpc _ _
  | publish hpc _ | created hpc _ | createdNull hpc _ => exact (elsewhere hpc own And.left).elim
  | @inner b m called acted =>
    have mine : actor b = t := own
    exact ⟨b, m, rfl, mine, called, acted, by rw [mine]⟩

theorem own_of_resolving (hs : Sound s) (h : next s a = some s') (inside : Resolving (s.mutex.pc t))
    (own : OwnStep t a) : ∃ b, a = .mutexStep b ∧ LazyLockProgress.OwnStep t (.act b) := by
  have busy : s.mutex.pc t ≠ .idle := by
    intro idle
    rw [idle] at inside
    exact Nat.lt_irrefl 0 inside
  obtain ⟨b, m, rfl, rfl, called, acted, _⟩ := own_mutexStep hs h busy own
  refine ⟨b, rfl, ?_⟩
  cases b with
  | advance _ | create _ _ => rfl
  | invoke u o => exact absurd rfl (called u o)
  | perform u ret =>
    cases acted with
    | performed hpc _ =>
      rw [actor, hpc] at inside
      exact absurd inside (Nat.lt_irrefl 0)

theorem own_of_callPrimitive {o : LockOp Unit} {p : Pointer} (hs : Sound s)
    (h : next s a = some s') (hpc : s.mutex.pc t = .callPrimitive o p) (own : OwnStep t a) :
    s'.pc = Function.update s.pc t (afterMutex (s.pc t)) := by
  have busy : s.mutex.pc t ≠ .idle := by
    rw [hpc]
    nofun
  obtain ⟨b, m, rfl, rfl, _, acted, rfl⟩ := own_mutexStep hs h busy own
  have ended : m.pc (actor b) = .idle := by
    cases acted with
    | performed _ _ => exact Function.update_self _ _ _
    | invoke hc | fastPath hc _ | slowPath hc | spin hc | enter hc _ | alreadyResolved hc _
    | unresolved hc _ | provided hc _ | unprovided hc _ | created _ hc _ | select hc
    | publish hc | leave hc => cases hc.symm.trans hpc
  rw [afterStep_idle ended]
  rfl

theorem calling_of_resolving (hs : Sound s) (inside : Resolving (s.mutex.pc t)) :
    ∃ op, resolving (s.pc t) = some op := by
  have here := hs.guarded.phase t
  cases hpc : s.pc t with
  | lockMutex op | unlockMutex op _ | reloadResolved op | loadProvider op | callFactory op _
  | storeResolved op _ | loadResolved op => exact ⟨op, rfl⟩
  | idle | callSignal _ _ | returnUnavailable _ | loadForInterrupt =>
    rw [hpc, Phase] at here
    rw [here] at inside
    exact absurd inside (Nat.lt_irrefl 0)

end

section
variable {Thread : Type} [DecidableEq Thread] {k : SignalKind Thread} {s : State k}

/-- Nobody is passed over for ever who could go on inside `Resolve`. For the wait for the mutex
this is a promise of the platform's mutex; elsewhere a thread need only not stop. -/
def Fair (e : Execution next s) : Prop := ∀ t, e.StronglyFair (Able t) (OwnStep t)

end

section
variable {Thread : Type} [DecidableEq Thread] {k : SignalKind Thread} {storage : ProviderStorage}
  {initiallySet : Bool} {e : Execution next (initial k storage initiallySet)}
  {s s' : State k} {a : Action Thread} {t u : Thread} {op : SignalOp} {c : Pc}

theorem always_sound (e : Execution next (initial k storage initiallySet)) (n : ℕ) :
    Sound (e.state n) :=
  invariant_of_execution (fun _ _ _ => sound_next) (initial_sound storage initiallySet) n

/-- What the mutex goes through is a fair execution of it. -/
theorem mutex_execution (fair : Fair e) :
    ∃ e' : Execution worldNext (initialWorld (mutex Thread) storage),
      (∀ n, e'.state n = mutexWorld (e.state n)) ∧ LazyLockProgress.Fair e' := by
  obtain ⟨e', same, follows⟩ := execution_image mutexWorld
    (R := fun _ a (b : WorldAction (mutex Thread)) => ∀ c, a = .mutexStep c → b = .act c)
    (fun _ _ _ => mutex_step) e
  refine ⟨e', same, fun t n inside => ?_⟩
  by_contra never
  have own : ∀ m, n ≤ m → ¬ LazyLockProgress.OwnStep t (e'.action m) :=
    fun m hnm mine => never ⟨m, hnm, mine⟩
  have stays : ∀ m, n ≤ m → Resolving ((e'.state m).lock.pc t) := by
    intro m hnm
    induction m, hnm using Nat.le_induction with
    | base => exact inside
    | succ m hnm ih => rwa [LazyLockProgress.other_step (e'.step m) ih (own m hnm)]
  have able : ∀ m, n ≤ m → Able t (e.state m) := by
    intro m hnm
    have hm := stays m hnm
    rw [same m] at hm
    obtain ⟨op, hop⟩ := calling_of_resolving (always_sound e m) hm
    exact able_of_resolving hop hm
  obtain ⟨m, hnm, mine⟩ := fair t n fun m hnm => ⟨m, Nat.le_refl m, able m hnm⟩
  have hm := stays m hnm
  rw [same m] at hm
  obtain ⟨b, hb, mine⟩ := own_of_resolving (always_sound e m) (e.step m) hm mine
  exact own m hnm (follows m b hb ▸ mine)

theorem callPrimitive_of_pending {Op : Type} {c : LazyLock.Pc Op} {o : Op}
    (called : pending c = some o) (outside : ¬ Resolving c) : ∃ p, c = .callPrimitive o p := by
  cases c with
  | idle => cases called
  | callPrimitive o' p =>
    rw [pending, Option.some.injEq] at called
    exact ⟨p, by rw [called]⟩
  | _ => exact absurd (Nat.succ_pos _) outside

theorem calls_keep {o : LockOp Unit} (hs : Sound s) (hpc : s.pc t = c)
    (calls : Calls t o (mutexWorld s)) (h : next s a = some s') :
    s'.pc t = c ∧ (Calls t o (mutexWorld s') ∨ ∃ p, s'.mutex.pc t = .callPrimitive o p) := by
  obtain ⟨op, inside⟩ := calling_of_resolving hs calls.2
  by_cases own : OwnStep t a
  · have called : s.mutex.pc t ≠ .idle := by
      intro idle
      cases calls.1.symm.trans (congrArg pending idle)
    obtain ⟨b, m, rfl, rfl, _, acted, rfl⟩ := own_mutexStep hs h called own
    have moved := resolving_step acted calls.2 calls.1
    have busy : pending (m.pc (actor b)) = some o := by
      rcases moved with ⟨still, _⟩ | ⟨p, hp⟩
      · exact still
      · rw [hp]
        rfl
    rw [afterStep_busy busy]
    refine ⟨hpc, moved.imp (fun ⟨still, left⟩ => ?_) id⟩
    exact ⟨still, LazyLockProgress.resolving_of_slow left⟩
  · obtain ⟨same, kept⟩ := other_step h inside own
    refine ⟨same.trans hpc, .inl ?_⟩
    change pending (s'.mutex.pc t) = some o ∧ Resolving (s'.mutex.pc t)
    rw [kept]
    exact calls

theorem call_reaches (fair : Fair e) (t : Thread) (o : LockOp Unit) (c : Pc) :
    e.LeadsTo (fun s => Sound s ∧ s.pc t = c ∧ pending (s.mutex.pc t) = some o)
      fun s => Sound s ∧ s.pc t = c ∧ ∃ p, s.mutex.pc t = .callPrimitive o p := by
  obtain ⟨e', same, fair'⟩ := mutex_execution fair
  have reach : e.LeadsTo (fun s => Calls t o (mutexWorld s)) fun s => Reached t o (mutexWorld s) :=
    leadsTo_of_image same (calls_reach fair')
  have calling := leadsTo_unless (S := fun s => Sound s ∧ s.pc t = c ∧ Calls t o (mutexWorld s))
    (R := fun s => Sound s ∧ s.pc t = c ∧ ∃ p, s.mutex.pc t = .callPrimitive o p) ?_ reach
  · rintro n ⟨hs, hpc, called⟩
    by_cases inside : Resolving ((e.state n).mutex.pc t)
    · have calls : Calls t o (mutexWorld (e.state n)) := ⟨called, inside⟩
      obtain ⟨m, hnm, ⟨⟨_, reached⟩, hm, there, _⟩ | reached⟩ := calling n ⟨calls, hs, hpc, calls⟩
      · exact ⟨m, hnm, hm, there, reached⟩
      · exact ⟨m, hnm, reached⟩
    · exact ⟨n, Nat.le_refl n, hs, hpc, callPrimitive_of_pending called inside⟩
  · rintro s a s' ⟨hs, hpc, calls⟩ h
    have sound := sound_next hs h
    obtain ⟨there, still | reached⟩ := calls_keep hs hpc calls h
    · exact .inl ⟨sound, there, still⟩
    · exact .inr ⟨sound, there, reached⟩

def Returned (t : Thread) (op : SignalOp) (s : State k) : Prop := ∃ r, s.pc t = afterResolve op r

def Freed (t : Thread) (op : SignalOp) (s : State k) : Prop :=
  Returned t op s ∧ ∀ u, ¬ (s.pc u).Critical

theorem afterResolve_outside (op : SignalOp) (r : Option ℕ) : ¬ (afterResolve op r).Critical := by
  cases r <;> exact id

theorem unlock_frees (fair : Fair e) (t : Thread) (op : SignalOp) (r : Option ℕ) :
    e.LeadsTo (fun s => Sound s ∧ s.pc t = .unlockMutex op r) (Freed t op) := by
  have reach := call_reaches fair t (.unlock ()) (.unlockMutex op r)
  have leave : e.LeadsTo
      (fun s => Sound s ∧ s.pc t = .unlockMutex op r ∧
        ∃ p, s.mutex.pc t = .callPrimitive (LockOp.unlock ()) p) (Freed t op) := by
    refine leadsTo_of_chance (OwnStep t) (fair t) ?_ ?_ fun n stays => ?_
    · rintro s a s' ⟨hs, hpc, p, hp⟩ other h
      obtain ⟨same, kept⟩ := other_step h (resolving_at hpc rfl) other
      exact .inl ⟨sound_next hs h, same.trans hpc, p, kept.trans hp⟩
    · rintro s a s' ⟨hs, hpc, p, hp⟩ own h
      have moved := own_of_callPrimitive hs h hp own
      rw [hpc, afterMutex] at moved
      refine ⟨⟨r, by rw [moved, Function.update_self]⟩, fun u => ?_⟩
      by_cases hu : u = t
      · rw [moved, hu, Function.update_self]
        exact afterResolve_outside op r
      · rw [moved, Function.update_of_ne hu]
        exact fun critical => hu (hs.guarded.critical_unique critical (by rw [hpc]; trivial))
    · obtain ⟨hs, hpc, p, hp⟩ := stays n (Nat.le_refl n)
      exact ⟨n, Nat.le_refl n, able_unlock hs (resolving_at hpc rfl) hp⟩
  refine leadsTo_trans (Q := _) ?_ leave
  rintro n ⟨hs, hpc⟩
  exact reach n ⟨hs, hpc, (hs.guarded.phase_at hpc).1⟩

def stepsLeft : Pc → ℕ
  | .reloadResolved _ => 4
  | .loadProvider _ => 3
  | .callFactory _ _ => 2
  | .storeResolved _ _ => 1
  | .idle | .loadResolved _ | .lockMutex _ | .unlockMutex _ _ | .callSignal _ _
  | .returnUnavailable _ | .loadForInterrupt => 0

theorem own_critical (h : next s a = some s') (inside : resolving (s.pc t) = some op)
    (before : 0 < stepsLeft (s.pc t)) (free : s.mutex.pc t = .idle) (own : OwnStep t a) :
    (∃ r, s'.pc t = .unlockMutex op r) ∨
      resolving (s'.pc t) = some op ∧ 0 < stepsLeft (s'.pc t) ∧
        stepsLeft (s'.pc t) < stepsLeft (s.pc t) := by
  have taken := step_cases h
  cases taken with
  | change _ | invoke _ | performed _ _ => exact own.elim
  | fastPath hpc _ | lock hpc _ | interrupt hpc | refused hpc =>
    rw [← show _ = t from own, hpc] at before
    exact absurd before (Nat.lt_irrefl 0)
  | inner called acted =>
    obtain ⟨o, hop⟩ := step_active called acted
    rw [show actor _ = t from own, free] at hop
    cases hop
  | alreadyResolved hpc _ _ | unprovided hpc _ _ | publish hpc _ | createdNull hpc _ =>
    rw [← show _ = t from own] at inside ⊢
    rw [hpc, resolving, Option.some.injEq] at inside
    subst inside
    exact .inl ⟨_, Function.update_self _ _ _⟩
  | unresolved hpc _ | provided hpc _ | created hpc _ =>
    rw [← show _ = t from own] at inside ⊢
    rw [hpc] at inside ⊢
    refine .inr ⟨?_, ?_⟩
    · simpa only [State.goto, Function.update_self, resolving] using inside
    · simp only [State.goto, Function.update_self, stepsLeft]
      omega

theorem critical_cases (critical : c.Critical) :
    ∃ op, resolving c = some op ∧ ((∃ r, c = .unlockMutex op r) ∨ 0 < stepsLeft c) := by
  cases c with
  | unlockMutex op r => exact ⟨op, rfl, .inl ⟨r, rfl⟩⟩
  | reloadResolved op | loadProvider op | callFactory op _ | storeResolved op _ =>
    exact ⟨op, rfl, .inr (Nat.succ_pos _)⟩
  | idle | loadResolved _ | lockMutex _ | callSignal _ _ | returnUnavailable _
  | loadForInterrupt => exact critical.elim

theorem idle_of_stepsLeft (hs : Sound s) (h : 0 < stepsLeft (s.pc t)) : s.mutex.pc t = .idle := by
  have here := hs.guarded.phase t
  cases hpc : s.pc t with
  | reloadResolved _ | loadProvider _ | callFactory _ _ | storeResolved _ _ =>
    rw [hpc] at here
    exact here.1
  | idle | loadResolved _ | lockMutex _ | unlockMutex _ _ | callSignal _ _ | returnUnavailable _
  | loadForInterrupt =>
    rw [hpc] at h
    exact absurd h (Nat.lt_irrefl 0)

theorem critical_unlocks (fair : Fair e) (t : Thread) (op : SignalOp) :
    e.LeadsTo (fun s => Sound s ∧ resolving (s.pc t) = some op ∧ 0 < stepsLeft (s.pc t))
      fun s => Sound s ∧ ∃ r, s.pc t = .unlockMutex op r := by
  refine leadsTo_of_rank (fun s => stepsLeft (s.pc t)) fun left => ?_
  refine leadsTo_of_chance (OwnStep t) (fair t) ?_ ?_ fun n stays => ?_
  · rintro s a s' ⟨⟨hs, inside, before⟩, rank⟩ other h
    obtain ⟨same, _⟩ := other_step h inside other
    exact .inl ⟨⟨sound_next hs h, same.symm ▸ inside, same.symm ▸ before⟩, same.symm ▸ rank⟩
  · rintro s a s' ⟨⟨hs, inside, before⟩, rank⟩ own h
    have sound := sound_next hs h
    rcases own_critical h inside before (idle_of_stepsLeft hs before) own with
      unlocking | ⟨inside, before, less⟩
    · exact .inl ⟨sound, unlocking⟩
    · exact .inr ⟨⟨sound, inside, before⟩, rank ▸ less⟩
  · obtain ⟨⟨hs, inside, before⟩, _⟩ := stays n (Nat.le_refl n)
    exact ⟨n, Nat.le_refl n, able_of_idle hs inside (idle_of_stepsLeft hs before)⟩

theorem critical_frees (fair : Fair e) (t : Thread) (op : SignalOp) :
    e.LeadsTo (fun s => Sound s ∧ (s.pc t).Critical ∧ resolving (s.pc t) = some op)
      (Freed t op) := by
  rintro n ⟨hs, critical, inside⟩
  obtain ⟨op', inside', ⟨r, hpc⟩ | before⟩ := critical_cases critical
  · rw [hpc, resolving, Option.some.injEq] at inside
    subst inside
    exact unlock_frees fair t _ r n ⟨hs, hpc⟩
  · obtain ⟨m, hnm, sound, r, hpc⟩ := critical_unlocks fair t op n ⟨hs, inside, before⟩
    obtain ⟨l, hml, freed⟩ := unlock_frees fair t op r m ⟨sound, hpc⟩
    exact ⟨l, hnm.trans hml, freed⟩

/-- Whoever waits for the mutex gets it, for whoever has it gives it back. -/
theorem lock_enters (fair : Fair e) (t : Thread) (op : SignalOp) :
    e.LeadsTo (fun s => Sound s ∧ s.pc t = .lockMutex op)
      fun s => Sound s ∧ (s.pc t).Critical ∧ resolving (s.pc t) = some op := by
  have reach := call_reaches fair t (.lock ()) (.lockMutex op)
  have enter : e.LeadsTo
      (fun s => Sound s ∧ s.pc t = .lockMutex op ∧
        ∃ p, s.mutex.pc t = .callPrimitive (LockOp.lock ()) p)
      fun s => Sound s ∧ (s.pc t).Critical ∧ resolving (s.pc t) = some op := by
    refine leadsTo_of_chance (OwnStep t) (fair t) ?_ ?_ fun n stays => ?_
    · rintro s a s' ⟨hs, hpc, p, hp⟩ other h
      obtain ⟨same, kept⟩ := other_step h (resolving_at hpc rfl) other
      exact .inl ⟨sound_next hs h, same.trans hpc, p, kept.trans hp⟩
    · rintro s a s' ⟨hs, hpc, p, hp⟩ own h
      have moved := own_of_callPrimitive hs h hp own
      rw [hpc, afterMutex] at moved
      have there : s'.pc t = .reloadResolved op := by rw [moved, Function.update_self]
      rw [there]
      exact ⟨sound_next hs h, trivial, rfl⟩
    · have free : ∃ m, n ≤ m ∧ ∀ u, ¬ ((e.state m).pc u).Critical := by
        by_cases taken : ∃ u, ((e.state n).pc u).Critical
        · obtain ⟨u, critical⟩ := taken
          obtain ⟨op', inside, _⟩ := critical_cases critical
          obtain ⟨m, hnm, freed⟩ := critical_frees fair u op' n ⟨always_sound e n, critical, inside⟩
          exact ⟨m, hnm, freed.2⟩
        · exact ⟨n, Nat.le_refl n, fun u critical => taken ⟨u, critical⟩⟩
      obtain ⟨m, hnm, free⟩ := free
      obtain ⟨hs, hpc, p, hp⟩ := stays m hnm
      exact ⟨m, hnm, able_lock hs (resolving_at hpc rfl) hp free⟩
  refine leadsTo_trans (Q := _) ?_ enter
  rintro n ⟨hs, hpc⟩
  exact reach n ⟨hs, hpc, hs.guarded.phase_at hpc⟩

theorem load_leads (fair : Fair e) (t : Thread) (op : SignalOp) :
    e.LeadsTo (fun s => Sound s ∧ s.pc t = .loadResolved op)
      fun s => Returned t op s ∨ Sound s ∧ s.pc t = .lockMutex op := by
  refine leadsTo_of_chance (OwnStep t) (fair t) ?_ ?_ fun n stays => ?_
  · rintro s a s' ⟨hs, hpc⟩ other h
    obtain ⟨same, _⟩ := other_step h (resolving_at hpc rfl) other
    exact .inl ⟨sound_next hs h, same.trans hpc⟩
  · rintro s a s' ⟨hs, hpc⟩ own h
    have sound := sound_next hs h
    have free : s.mutex.pc t = .idle := hs.guarded.phase_at hpc
    have taken := step_cases h
    cases taken with
    | change _ | invoke _ | performed _ _ => exact own.elim
    | fastPath hc _ =>
      rw [show _ = t from own, hpc] at hc
      cases hc
      rw [← show _ = t from own]
      exact .inl ⟨some _, Function.update_self _ _ _⟩
    | lock hc _ =>
      rw [show _ = t from own, hpc] at hc
      cases hc
      refine .inr ⟨sound, ?_⟩
      rw [← show _ = t from own]
      exact Function.update_self _ _ _
    | inner called acted =>
      obtain ⟨o, hop⟩ := step_active called acted
      rw [show actor _ = t from own, free] at hop
      cases hop
    | alreadyResolved hc _ _ | unresolved hc _ | provided hc _ | unprovided hc _ _
    | publish hc _ | interrupt hc | refused hc | created hc _ | createdNull hc _ =>
      rw [show _ = t from own, hpc] at hc
      cases hc
  · obtain ⟨hs, hpc⟩ := stays n (Nat.le_refl n)
    exact ⟨n, Nat.le_refl n, able_of_idle hs (resolving_at hpc rfl) (hs.guarded.phase_at hpc)⟩

theorem resolve_returns (fair : Fair e) (t : Thread) (op : SignalOp) :
    e.LeadsTo (fun s => resolving (s.pc t) = some op) (Returned t op) := by
  have critical : e.LeadsTo (fun s => Sound s ∧ (s.pc t).Critical ∧ resolving (s.pc t) = some op)
      (Returned t op) := by
    intro n hn
    obtain ⟨m, hnm, freed⟩ := critical_frees fair t op n hn
    exact ⟨m, hnm, freed.1⟩
  have locking := leadsTo_trans (lock_enters fair t op) critical
  intro n inside
  have hs := always_sound e n
  cases hpc : (e.state n).pc t with
  | idle | callSignal _ _ | returnUnavailable _ | loadForInterrupt =>
    rw [hpc] at inside
    cases inside
  | loadResolved op' =>
    rw [hpc, resolving, Option.some.injEq] at inside
    subst inside
    obtain ⟨m, hnm, returned | waiting⟩ := load_leads fair t _ n ⟨hs, hpc⟩
    · exact ⟨m, hnm, returned⟩
    · obtain ⟨l, hml, returned⟩ := locking m waiting
      exact ⟨l, hnm.trans hml, returned⟩
  | lockMutex op' =>
    rw [hpc, resolving, Option.some.injEq] at inside
    subst inside
    exact locking n ⟨hs, hpc⟩
  | reloadResolved _ | loadProvider _ | callFactory _ _ | storeResolved _ _ | unlockMutex _ _ =>
    exact critical n ⟨hs, by rw [hpc]; trivial, inside⟩

/-- In every execution that is fair to those who wait for the mutex, `Resolve` returns to each
call, with the published signal or with null; so no interleaving of threads, interrupts and
providers can block it. -/
theorem deferred_signal_resolve_returns (k : SignalKind Thread) (storage : ProviderStorage)
    (initiallySet : Bool) (e : Execution next (initial k storage initiallySet)) (fair : Fair e)
    {t : Thread} {n : ℕ} {op : SignalOp} (inside : resolving ((e.state n).pc t) = some op) :
    ∃ m, n ≤ m ∧ ((e.state m).pc t = .returnUnavailable op ∨
      ∃ j, (e.state m).pc t = .callSignal op j ∧ (e.state m).resolved = some j) := by
  obtain ⟨m, hnm, r, hpc⟩ := resolve_returns fair t op n inside
  have invariant : Invariant initiallySet (e.state m) :=
    invariant_of_execution invariant_step (initial_invariant storage initiallySet) m
  cases r with
  | none => exact ⟨m, hnm, .inl hpc⟩
  | some j => exact ⟨m, hnm, .inr ⟨j, hpc, invariant.2.1.knows_at hpc⟩⟩

def flag : SignalKind Bool where
  State := Bool
  create := fun _ initiallySet => initiallySet
  perform := fun flag _ op ret => semaphorePerform flag (semaphoreOp op) ret.isSuccess

def contention : List (Action Bool) :=
  [.invoke false .give, .invoke true (.wait waitForever), .advance false, .advance true,
    .mutexStep (.advance false), .mutexStep (.advance false), .mutexStep (.advance false),
    .mutexStep (.advance false), .mutexStep (.advance false), .mutexStep (.advance false),
    .mutexStep (.advance false), .mutexStep (.perform false true), .mutexStep (.advance true),
    .advance false, .advance false, .mutexStep (.advance false), .mutexStep (.perform false true),
    .change (.setProvider (some 7)), .mutexStep (.perform true true), .advance true, .advance true,
    .create true .object, .advance true, .mutexStep (.advance true), .mutexStep (.perform true true),
    .advance false, .perform true succeeded]

theorem contention_completes : (run next (initial flag none true) contention).isSome := by
  decide +kernel

def contended : Execution next (initial flag none true) :=
  .stuttering (a := .change (.setProvider (some 7))) (Option.some_get contention_completes).symm
    (by rfl)

theorem contention_ends (t : Bool) :
    resolving ((Option.get _ contention_completes).pc t) = none := by
  revert t
  decide +kernel

theorem contended_fair : Fair contended := by
  intro t n often
  obtain ⟨l, hl, inside, _⟩ := often (max n contention.length) (le_max_left _ _)
  have ended : contended.state l = Option.get _ contention_completes :=
    stuttering_past _ _ ((le_max_right _ _).trans hl)
  rw [ended, contention_ends t] at inside
  cases inside

theorem contended_waits : resolving ((contended.state 4).pc true) = some (.wait waitForever) := by
  decide +kernel

theorem deferred_signal_resolve_returns_contended :
    ∃ m, 4 ≤ m ∧ ((contended.state m).pc true = .returnUnavailable (.wait waitForever) ∨
      ∃ j, (contended.state m).pc true = .callSignal (.wait waitForever) j ∧
        (contended.state m).resolved = some j) :=
  deferred_signal_resolve_returns flag none true contended contended_fair contended_waits

end

end ESPressioSystem.DeferredSignalProgress
