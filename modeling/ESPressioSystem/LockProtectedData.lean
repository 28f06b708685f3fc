import Mathlib.Data.Fintype.Basic
import ESPressioSystem.LockedData
import ESPressioSystem.WeakLockWorld

set_option autoImplicit false

/-!
# What is accessed under a lazily resolved lock is accessed in order
-/
namespace ESPressioSystem.LockProtectedData
open Transition Ledger SharedObject SynchronizationProvider LazyLock ReleaseAcquire
  ProviderPublication WeakLazyLock WeakLockWorld Locks LockedData

section
variable {Thread : Type} [DecidableEq Thread] {Mode : Type} [DecidableEq Mode]
  {admits : Multiset (Thread × Mode) → Thread × Mode → Bool} {factory : Factory}
  {exclusive : Mode → Bool}

/-- The thread holds the lock in some mode, and in an exclusive one if it writes. -/
def Permitted (exclusive : Mode → Bool) (w : WeakLockWorld.World (lockKind admits factory)) (t : Thread)
    (write : Bool) : Prop :=
  ∃ m, Holds w.lock.history t m ∧ (write = true → exclusive m = true)

def Guarded (exclusive : Mode → Bool) (w : WeakLockWorld.World (lockKind admits factory)) :
    WeakLockWorld.WorldAction (lockKind admits factory) → Prop
  | .access t write => Permitted exclusive w t write
  | .process _ | .act _ _ => True

instance [Fintype Mode] (w : WeakLockWorld.World (lockKind admits factory)) (t : Thread)
    (write : Bool) : Decidable (Permitted exclusive w t write) :=
  have _held : ∀ m, Decidable (Holds w.lock.history t m) := decidableHolds w.lock.history t
  inferInstanceAs (Decidable (∃ m, Holds w.lock.history t m ∧ (write = true → exclusive m = true)))

instance [Fintype Mode] (w : WeakLockWorld.World (lockKind admits factory))
    (a : WeakLockWorld.WorldAction (lockKind admits factory)) : Decidable (Guarded exclusive w a) := by
  unfold Guarded
  split <;> infer_instance

def AccessOrdered (data : Plain) (write : Bool) (view : View) : Prop :=
  if write then data.WriteOrdered view else data.ReadOrdered view

def KeepsApart (admits : Multiset (Thread × Mode) → Thread × Mode → Bool)
    (exclusive : Mode → Bool) : Prop :=
  ∀ entries held, run (post admits) 0 entries = some held → Excludes exclusive held

def holds (s : WeakLock (lockKind admits factory)) (p : Pointer) : Multiset (Thread × Mode) :=
  s.objects p

/-- The accesses are ordered by the object that the lock has been resolved to. -/
structure Protects (exclusive : Mode → Bool) (view : Thread → View)
    (s : WeakLock (lockKind admits factory)) (data : Plain) : Prop where
  sound : Sound view s
  untouched : ReleaseAcquire.newest s.resolved none = none → data = .untouched
  ordered : ∀ p, ReleaseAcquire.newest s.resolved none = some p →
    Ordered exclusive (holds s p) (s.released p) view data

variable {view view' : Thread → View} {s s' : WeakLock (lockKind admits factory)} {data : Plain}
  {storage : Atomic ProviderStorage} {event : ℕ} {a : LazyLock.Action (lockKind admits factory)}
  {learnt : View} {t : Thread} {m : Mode} {p : Pointer}

theorem protects_mono (h : Protects exclusive view s data) (grow : ∀ t, view t ⊆ view' t) :
    Protects exclusive view' s data where
  sound := h.sound.mono grow
  untouched := h.untouched
  ordered p hp := (h.ordered p hp).learn grow

theorem sound_excludes (apart : KeepsApart admits exclusive) (hs : Sound view s)
    (hp : ReleaseAcquire.newest s.resolved none = some p) : Excludes exclusive (holds s p) :=
  apart _ _ (run_lock_entries (hs.base.single p hp))

theorem holds_object (hs : Sound view s) (held : Holds s.history t m) :
    ∃ p, ReleaseAcquire.newest s.resolved none = some p ∧ (t, m) ∈ holds s p := by
  cases hp : ReleaseAcquire.newest s.resolved none with
  | none =>
    have unused : s.history = [] := (hs.base.unused hp).1
    rw [unused] at held
    cases held
  | some p => exact ⟨p, rfl, (holds_iff_mem (hs.base.single p hp) t m).mp held⟩

theorem acquired_ordered {held held' : Multiset (Thread × Mode)} {released : View}
    (apart : Excludes exclusive held') (h : Ordered exclusive held released view data)
    (grow : ∀ u, view u ⊆ view' u) (learns : released ⊆ view' t)
    (acquired : post admits held (.acquire (t, m)) = some held') :
    Ordered exclusive held' released view' data := by
  obtain ⟨_, rfl⟩ := post_acquire acquired
  exact (h.learn grow).acquire apart learns

theorem released_ordered {held held' : Multiset (Thread × Mode)} {released : View}
    (h : Ordered exclusive held released view data) (grow : ∀ u, view u ⊆ view' u)
    (given : post admits held (.release (t, m)) = some held') :
    Ordered exclusive held' (released ∪ insert event (view t)) view' data := by
  obtain ⟨_, rfl⟩ := post_release given
  have handed : view t ⊆ released ∪ insert event (view t) :=
    (Finset.subset_insert _ _).trans Finset.subset_union_right
  exact (h.release Finset.subset_union_left handed).learn grow

/-- A call of the object takes a hold, gives one up, or leaves all as it is. -/
theorem performed_ordered {op : LockOp Mode} {ret : Bool} {held held' : Multiset (Thread × Mode)}
    {released : View} (apart : Excludes exclusive held')
    (h : Ordered exclusive held released view data) (grow : ∀ u, view u ⊆ view' u)
    (learns : (if (lockHandover admits).acquires op ret then released else ∅) ⊆ view' t)
    (performed : lockPerform admits held t op ret = some held') :
    Ordered exclusive held' (if (lockHandover admits).releases op ret then
      released ∪ insert event (view t) else released) view' data := by
  cases ret with
  | true =>
    cases op with
    | lock m | tryLock m => exact acquired_ordered apart h grow learns performed
    | unlock m =>
      have given : post admits held (.release (t, m)) = some held' := performed
      exact released_ordered h grow given
  | false =>
    cases op with
    | lock m | unlock m => cases performed
    | tryLock m =>
      cases performed
      exact h.learn grow

/-- Once the lock is resolved, only a call of its object changes what orders the accesses. -/
theorem resolved_ordered (apart : KeepsApart admits exclusive) (hs : Sound view s)
    (hs' : Sound view' s')
    (taken : WeakStep (lockHandover admits) storage event (view (actor a)) s a learnt s')
    (grow : ∀ t, view t ⊆ view' t) (learns : learnt ⊆ view' (actor a))
    (hp : ReleaseAcquire.newest s.resolved none = some p)
    (h : Ordered exclusive (holds s p) (s.released p) view data) :
    ReleaseAcquire.newest s'.resolved none = some p ∧
      Ordered exclusive (holds s' p) (s'.released p) view' data := by
  cases taken with
  | created outcome hpc _ => cases (hs.knows_at hpc).1.symm.trans hp
  | publish hpc _ => cases (hs.knows_at hpc).1.symm.trans hp
  | @performed t op q ret after hpc performed =>
    obtain rfl : q = p := Option.some.inj ((hs.knows_at hpc).symm.trans hp)
    refine ⟨hp, ?_⟩
    have excludes := sound_excludes apart hs' hp
    have held : Function.update s.objects q after q = after := Function.update_self _ _ _
    simp only [holds, held, ite_apply, Function.update_self] at excludes ⊢
    exact performed_ordered excludes h grow learns performed
  | invoke _ | loaded _ _ | tested _ _ | reloaded _ _ | asked _ _ | select _ | leave _ _ =>
    exact ⟨hp, h.learn grow⟩

theorem protects_step (apart : KeepsApart admits exclusive) (h : Protects exclusive view s data)
    (taken : WeakStep (lockHandover admits) storage event (view (actor a)) s a learnt s')
    (grow : ∀ t, view t ⊆ view' t) (learns : learnt ⊆ view' (actor a))
    (now : event ∈ view' (actor a)) : Protects exclusive view' s' data := by
  obtain ⟨_, sound⟩ := sound_step h.sound taken grow learns now
  cases hp : ReleaseAcquire.newest s.resolved none with
  | none =>
    have untouched := h.untouched hp
    refine ⟨sound, fun _ => untouched, fun q _ => ?_⟩
    rw [untouched]
    exact ordered_untouched _ _ _
  | some p =>
    have before := h.ordered p hp
    obtain ⟨kept, after⟩ := resolved_ordered apart h.sound sound taken grow learns hp before
    refine ⟨sound, fun unset => ?_, fun q hq => ?_⟩
    · cases unset.symm.trans kept
    · obtain rfl : q = p := Option.some.inj (hq.symm.trans kept)
      exact after

omit [DecidableEq Thread] [DecidableEq Mode] in
theorem access_ordered {held : Multiset (Thread × Mode)} {released : View} {write : Bool}
    (apart : Excludes exclusive held) (h : Ordered exclusive held released view data)
    (hk : (t, m) ∈ held) (hx : write = true → exclusive m = true) (now : event ∈ view t) :
    Ordered exclusive held released view (Plain.access data write event) := by
  cases write with
  | true => exact h.write_by apart hk (hx rfl) now
  | false => exact h.read_by apart hk now

theorem guarded_step (apart : KeepsApart admits exclusive)
    {w w' : WeakLockWorld.World (lockKind admits factory)}
    {b : WeakLockWorld.WorldAction (lockKind admits factory)}
    (h : Protects exclusive w.process.threads.view w.lock w.data) (guarded : Guarded exclusive w b)
    (hstep : WeakLockWorld.worldNext (lockHandover admits) w b = some w') :
    Protects exclusive w'.process.threads.view w'.lock w'.data := by
  cases b with
  | process c =>
    obtain ⟨q, hq, rfl⟩ := Option.map_eq_some_iff.mp hstep
    exact protects_mono h (extends_step (ProviderPublication.step_cases hq)).views
  | act c i =>
    obtain ⟨⟨learnt, lock⟩, hlock, rfl⟩ := Option.map_eq_some_iff.mp hstep
    exact protects_step apart h (WeakLazyLock.step_cases hlock)
      (Threads.view_grows w.process.threads (actor c) learnt) Threads.learnt_subset Threads.clock_mem
  | access t write =>
    rw [← Option.some.inj hstep]
    obtain ⟨m, held, hx⟩ := guarded
    obtain ⟨p, hp, hk⟩ := holds_object h.sound held
    have later := protects_mono h (Threads.view_grows w.process.threads t ∅)
    refine ⟨later.sound, fun unset => ?_, fun q hq => ?_⟩
    · cases unset.symm.trans hp
    · obtain rfl : q = p := Option.some.inj (hq.symm.trans hp)
      exact access_ordered (sound_excludes apart h.sound hp) (later.ordered q hp) hk hx
        Threads.clock_mem

theorem protects_permitted {w : WeakLockWorld.World (lockKind admits factory)}
    (h : Protects exclusive w.process.threads.view w.lock w.data) {t : Thread} {write : Bool}
    (permitted : Permitted exclusive w t write) :
    AccessOrdered w.data write (w.process.threads.view t) := by
  obtain ⟨m, held, hx⟩ := permitted
  obtain ⟨p, hp, hk⟩ := holds_object h.sound held
  cases write with
  | true => exact (h.ordered p hp).writer (t, m) hk (hx rfl)
  | false => exact (h.ordered p hp).reader (t, m) hk

/-- If every access is made under the lock, whatever the next one is, all it could conflict with
have happened before. -/
def ProtectsData (admits : Multiset (Thread × Mode) → Thread × Mode → Bool) (factory : Factory)
    (exclusive : Mode → Bool) : Prop :=
  ∀ as w, Meets (WeakLockWorld.worldNext (lockHandover admits)) (Guarded exclusive)
      (WeakLockWorld.initialWorld (lockKind admits factory)) as →
    run (WeakLockWorld.worldNext (lockHandover admits))
      (WeakLockWorld.initialWorld (lockKind admits factory)) as = some w →
    ∀ t write, Permitted exclusive w t write →
      AccessOrdered w.data write (w.process.threads.view t)

theorem protectsData_of_apart (apart : KeepsApart admits exclusive) :
    ProtectsData admits factory exclusive := by
  intro as w guarded h t write
  have start : Protects exclusive (WeakLockWorld.initialWorld (lockKind admits factory)).process.threads.view
      (WeakLazyLock.initial (lockKind admits factory)) .untouched :=
    ⟨sound_initial _ _, fun _ => rfl, fun p _ => ordered_untouched _ _ _⟩
  have protects := invariant_of_meets (C := Guarded exclusive)
    (I := fun v : WeakLockWorld.World (lockKind admits factory) =>
      Protects exclusive v.process.threads.view v.lock v.data)
    (fun _ _ _ hg hv hs => guarded_step apart hv hg hs) start guarded h
  exact protects_permitted protects

end

section
variable {Thread : Type} [DecidableEq Thread]

def exclusiveAccess : Access → Bool
  | .exclusive => true
  | .shared => false

theorem exclusive_apart :
    KeepsApart (admitsExclusive : Multiset (Thread × Unit) → Thread × Unit → Bool) fun _ => true := by
  intro entries held h k hk _ j hj
  rw [exclusive_single h k hk] at hj
  rw [Multiset.mem_singleton.mp hj]

theorem recursive_apart :
    KeepsApart (admitsRecursive : Multiset (Thread × Unit) → Thread × Unit → Bool) fun _ => true :=
  fun _ _ h k hk _ j hj => recursive_single h j hj k hk

theorem readWrite_apart :
    KeepsApart (admitsReadWrite : Multiset (Thread × Access) → Thread × Access → Bool)
      exclusiveAccess := by
  rintro entries held h ⟨t, access⟩ hk hx j hj
  cases access with
  | shared => cases hx
  | exclusive =>
    rw [readWrite_writer h t hk] at hj
    rw [Multiset.mem_singleton.mp hj]

end

/-- Thread 0 writes under the lock and releases it, and thread 1 acquires it. -/
def handed : List (WeakLockWorld.WorldAction (mutex ℕ)) :=
  [.act (.invoke 0 (LockOp.lock ())) 0, .act (.advance 0) 0, .act (.advance 0) 0,
    .act (.advance 0) 0, .act (.advance 0) 0, .act (.advance 0) 0, .act (.advance 0) 1,
    .act (.advance 0) 2, .act (.perform 0 true) 0, .access 0 true,
    .act (.invoke 0 (LockOp.unlock ())) 0, .act (.advance 0) 1, .act (.perform 0 true) 0,
    .act (.invoke 1 (LockOp.lock ())) 0, .act (.advance 1) 1, .act (.perform 1 true) 0]

theorem handed_completes :
    (run (WeakLockWorld.worldNext (lockHandover admitsExclusive))
      (WeakLockWorld.initialWorld (mutex ℕ)) handed).isSome := by decide +kernel

end ESPressioSystem.LockProtectedData
