import ESPressioSystem.WeakLazyLockInvariant

set_option autoImplicit false

/-!
# A lazily resolved lock never races with itself

The threads also construct and install providers, and access data of their own.
-/
namespace ESPressioSystem.WeakLockWorld
open Transition SharedObject SynchronizationProvider LazyLock ReleaseAcquire ProviderPublication
  WeakLazyLock Locks

section
variable {Thread : Type} [DecidableEq Thread]

/-- The lock among providers, and an object of the program that uses it. -/
structure World (k : Kind Thread) where
  process : Process Thread
  lock : WeakLock k
  data : Plain

inductive WorldAction (k : Kind Thread) where
  | process (a : ProviderPublication.Action Thread)
  | act (a : LazyLock.Action k) (i : ℕ)
  | access (t : Thread) (write : Bool)

variable {k : Kind Thread}

def initialWorld (k : Kind Thread) : World k where
  process := ProviderPublication.initial Thread synchronization
  lock := WeakLazyLock.initial k
  data := .untouched

def Process.learn (p : Process Thread) (t : Thread) (learnt : View) : Process Thread :=
  { p with threads := p.threads.step t learnt }

def Plain.access (x : Plain) (write : Bool) (event : ℕ) : Plain :=
  if write then x.write event else x.read event

def worldNext (sync : Handover k.primitive) (w : World k) : WorldAction k → Option (World k)
  | .process a => (ProviderPublication.next synchronization w.process a).map fun p =>
      { w with process := p }
  | .act a i =>
    let threads := w.process.threads
    (step sync w.process.storage threads.clock (threads.view (actor a)) w.lock a i).map
      fun (learnt, lock) => { w with process := Process.learn w.process (actor a) learnt, lock := lock }
  | .access t write => some { w with
      process := Process.learn w.process t ∅
      data := Plain.access w.data write w.process.threads.clock }

/-- Whoever installs a provider knows that it is constructed. -/
def Installs (w : World k) : WorldAction k → Prop
  | .process a => Informed w.process a
  | .act _ _ | .access _ _ => True

instance (w : World k) (a : WorldAction k) : Decidable (Installs w a) := by
  unfold Installs
  split <;> infer_instance

/-- The next step of the thread is an access that may take place at the same time as another that
conflicts with it. At `callFactory` a function of the provider is called, and its result assigned
to `_owned`. -/
def Races (w : World k) (t : Thread) : Prop :=
  let view := w.process.threads.view t
  match w.lock.pc t with
  | .callFactory _ p =>
    ¬ (Known (w.process.providers p) view ∧ w.lock.ownedAccesses.WriteOrdered view)
  | .selectPrimitive _ => ¬ w.lock.ownedAccesses.ReadOrdered view
  | .callPrimitive _ p => ¬ Known (w.lock.made p) view
  | .idle | .loadResolved _ | .testAndSet _ | .reloadResolved _ | .loadProvider _
  | .storeResolved _ _ | .clearGuard _ _ => False

structure WorldInvariant (w : World k) : Prop where
  published : Published synchronization w.process
  sound : Sound w.process.threads.view w.lock
  provider : ∀ t op p, w.lock.pc t = .callFactory op p →
    Known (w.process.providers p) (w.process.threads.view t)

variable {sync : Handover k.primitive} {w w' : World k} {a : WorldAction k}

theorem published_learn {p : Process Thread} (h : Published synchronization p) (t : Thread)
    (learnt : View) : Published synchronization (Process.learn p t learnt) where
  fallback := h.fallback
  started u := Threads.view_grows p.threads t learnt u (h.started u)
  handed := h.handed

omit [DecidableEq Thread] in
theorem invariant_initial (k : Kind Thread) : WorldInvariant (initialWorld k) where
  published := published_initial synchronization
  sound := sound_initial k _
  provider t op p hpc := by cases hpc

/-- One thread moves, and it comes to call a provider's factory only by loading the provider. -/
theorem weak_moves {storage : Atomic ProviderStorage} {event : ℕ} {view learnt : View}
    {s s' : WeakLock k} {b : LazyLock.Action k} (h : WeakStep sync storage event view s b learnt s') :
    ∃ c, s'.pc = Function.update s.pc (actor b) c ∧ ∀ op p, c = .callFactory op p →
      ∃ m ∈ storage, m.value = some p ∧ learnt = m.known := by
  cases h with
  | @loaded t op i m _ _ =>
    refine ⟨afterLoad op m.value, rfl, fun op' p hc => ?_⟩
    cases value : m.value <;> rw [value] at hc <;> cases hc
  | @tested t op i m flag _ _ =>
    refine ⟨afterTest op m.value, rfl, fun op' p hc => ?_⟩
    cases value : m.value <;> rw [value] at hc <;> cases hc
  | @reloaded t op i m _ _ =>
    refine ⟨afterReload op m.value, rfl, fun op' p hc => ?_⟩
    cases value : m.value <;> rw [value] at hc <;> cases hc
  | @asked t op i m _ hm =>
    refine ⟨afterProvider op m.value, rfl, fun op' p hc => ⟨m, load_mem hm, ?_, rfl⟩⟩
    cases value : m.value <;> rw [value] at hc <;> cases hc
    rfl
  | created outcome hpc hcreate =>
    exact ⟨_, (create_goto hpc (create_newest hcreate)).1, fun op p hc => by cases hc⟩
  | invoke _ | select _ | publish _ _ | leave _ _ | performed _ _ =>
    exact ⟨_, rfl, fun op p hc => by cases hc⟩

theorem invariant_process (hw : WorldInvariant w) {b : ProviderPublication.Action Thread}
    (informed : Informed w.process b) {p : Process Thread}
    (h : ProviderPublication.next synchronization w.process b = some p) :
    WorldInvariant { w with process := p } := by
  have taken := ProviderPublication.step_cases h
  have ext := extends_step taken
  refine ⟨published_step hw.published informed taken, hw.sound.mono ext.views, ?_⟩
  intro t op q hpc
  exact ext.providers q _ ((hw.provider t op q hpc).mono (ext.views t))

theorem invariant_act (hw : WorldInvariant w) {b : LazyLock.Action k} {learnt : View}
    {lock : WeakLock k} (h : WeakStep sync w.process.storage w.process.threads.clock
      (w.process.threads.view (actor b)) w.lock b learnt lock) :
    WorldInvariant { w with process := Process.learn w.process (actor b) learnt, lock := lock } := by
  have grow := Threads.view_grows w.process.threads (actor b) learnt
  obtain ⟨_, sound⟩ := sound_step hw.sound h grow Threads.learnt_subset Threads.clock_mem
  refine ⟨published_learn hw.published _ _, sound, fun u op p hpc => ?_⟩
  obtain ⟨c, moved, loads⟩ := weak_moves h
  change lock.pc u = _ at hpc
  rw [moved] at hpc
  by_cases hu : u = actor b
  · rw [hu, Function.update_self] at hpc
    obtain ⟨m, hm, value, rfl⟩ := loads op p hpc
    rw [hu]
    exact ((hw.published.handed m hm).2 p value).mono Threads.learnt_subset
  · rw [Function.update_of_ne hu] at hpc
    exact (hw.provider u op p hpc).mono (grow u)

theorem invariant_access (hw : WorldInvariant w) (t : Thread) (data : Plain) :
    WorldInvariant { w with process := Process.learn w.process t ∅, data := data } where
  published := published_learn hw.published t ∅
  sound := hw.sound.mono (Threads.view_grows w.process.threads t ∅)
  provider u op p hpc :=
    (hw.provider u op p hpc).mono (Threads.view_grows w.process.threads t ∅ u)

theorem invariant_step (hw : WorldInvariant w) (installs : Installs w a)
    (h : worldNext sync w a = some w') : WorldInvariant w' := by
  cases a with
  | process b =>
    obtain ⟨p, hp, rfl⟩ := Option.map_eq_some_iff.mp h
    exact invariant_process hw installs hp
  | act b i =>
    obtain ⟨⟨learnt, lock⟩, hstep, rfl⟩ := Option.map_eq_some_iff.mp h
    exact invariant_act hw (step_cases hstep)
  | access t write =>
    rw [← Option.some.inj h]
    exact invariant_access hw t _

omit [DecidableEq Thread] in
theorem WorldInvariant.orderly (hw : WorldInvariant w) (t : Thread) : ¬ Races w t := by
  intro race
  have owner := hw.sound.owner t
  unfold Races at race
  cases hpc : w.lock.pc t with
  | callFactory op p =>
    simp only [hpc] at race owner
    exact race ⟨hw.provider t op p hpc, (owner trivial).knows.owned⟩
  | selectPrimitive op =>
    simp only [hpc] at race owner
    exact race (owner trivial).knows.owned.2
  | callPrimitive op p =>
    simp only [hpc] at race
    exact race (hw.sound.callers t op p hpc)
  | _ => simp only [hpc] at race

/-- With the memory orders of the source, no access that a lazily resolved lock makes to its
pointer, to the primitive it calls or to a provider races with any other. -/
theorem lazy_lock_never_races (k : Kind Thread) (sync : Handover k.primitive)
    {as : List (WorldAction k)} {w : World k}
    (installs : Meets (worldNext sync) Installs (initialWorld k) as)
    (h : run (worldNext sync) (initialWorld k) as = some w) (t : Thread) : ¬ Races w t := by
  have invariant : WorldInvariant w := invariant_of_meets (C := Installs) (I := WorldInvariant)
    (fun _ _ _ hi hw hs => invariant_step hw hi hs) (invariant_initial k) installs h
  exact invariant.orderly t

end

/-- Thread 1 does not see that thread 0 has taken the guard, and then published the primitive. -/
def contended : List (WorldAction (mutex ℕ)) :=
  [.process (.construct 0 5), .process (.change 0 (.setProvider (some 5)) 1),
    .act (.invoke 0 (LockOp.lock ())) 0, .act (.advance 0) 0, .act (.advance 0) 0,
    .act (.advance 0) 0, .act (.advance 0) 1, .act (.create 0 .object) 0, .act (.advance 0) 0,
    .act (.invoke 1 (LockOp.tryLock ())) 0, .act (.advance 0) 1, .act (.advance 0) 2,
    .act (.advance 1) 0, .act (.advance 1) 1, .act (.advance 1) 3, .act (.advance 1) 1,
    .act (.advance 1) 5]

theorem lazy_lock_never_races_contended :
    ∃ w, run (worldNext (lockHandover admitsExclusive)) (initialWorld (mutex ℕ)) contended = some w ∧
      (∃ op, w.lock.pc 1 = .callPrimitive op (.created 1)) ∧ ¬ Races w 1 := by
  have completes : (run (worldNext (lockHandover admitsExclusive)) (initialWorld (mutex ℕ))
      contended).isSome := by decide +kernel
  have reached := (Option.some_get completes).symm
  exact ⟨_, reached, ⟨_, rfl⟩,
    lazy_lock_never_races (mutex ℕ) (lockHandover admitsExclusive) (by decide +kernel) reached 1⟩

end ESPressioSystem.WeakLockWorld
