import ESPressioSystem.LazyLockInvariant

set_option autoImplicit false

/-!
# `Mutex`, `RecursiveMutex` and `ReadWriteLock` among threads that change the provider
-/
namespace ESPressioSystem.Locks
open Transition Ledger SharedObject SynchronizationProvider LazyLock

section
variable {Thread : Type} [DecidableEq Thread] {Mode : Type} [DecidableEq Mode]

/-- The embedded fallback and whatever the factory returns keep one discipline. -/
def lockKind (admits : Multiset (Thread × Mode) → Thread × Mode → Bool) (factory : Factory) :
    Kind Thread :=
  ⟨lockPrimitive admits, factory⟩

abbrev mutex (Thread : Type) [DecidableEq Thread] : Kind Thread :=
  lockKind (admitsExclusive : Multiset (Thread × Unit) → Thread × Unit → Bool) .createMutex
abbrev recursiveMutex (Thread : Type) [DecidableEq Thread] : Kind Thread :=
  lockKind (admitsRecursive : Multiset (Thread × Unit) → Thread × Unit → Bool) .createRecursiveMutex
abbrev readWriteLock (Thread : Type) [DecidableEq Thread] : Kind Thread :=
  lockKind (admitsReadWrite : Multiset (Thread × Access) → Thread × Access → Bool) .createReadWriteLock

structure World (k : Kind Thread) where
  storage : ProviderStorage
  lock : Lock k

inductive WorldAction (k : Kind Thread) where
  | change (c : ProviderChange)
  | act (a : Action k)

def initialWorld (k : Kind Thread) (storage : ProviderStorage) : World k := ⟨storage, initial k⟩

def worldNext {k : Kind Thread} (w : World k) : WorldAction k → Option (World k)
  | .change c => some { w with storage := c.apply w.storage }
  | .act a => (step w.storage w.lock a).map fun lock => { w with lock := lock }

/-- The operation a thread is in the middle of. -/
def pending {Op : Type} : Pc Op → Option Op
  | .idle => none
  | .loadResolved op | .testAndSet op | .reloadResolved op | .loadProvider op | .callFactory op _
  | .selectPrimitive op | .storeResolved op _ | .clearGuard op _ | .callPrimitive op _ => some op

def actor {k : Kind Thread} : Action k → Thread
  | .invoke t _ | .advance t | .create t _ | .perform t _ => t

end

section
variable {Thread : Type} [DecidableEq Thread] {k : Kind Thread} {storage : ProviderStorage}
  {s s' : Lock k} {a : Action k}

theorem create_goto {t : Thread} {outcome : Outcome} {op : k.primitive.Op} {p : ProviderId}
    (hpc : s.pc t = .callFactory op p) (h : create s t outcome = some s') :
    s'.pc = (s.goto t (.selectPrimitive op)).pc ∧ s'.history = s.history ∧
      s'.resolved = s.resolved := by
  simp only [create, hpc] at h
  cases outcome <;> rw [← Option.some.inj h] <;> exact ⟨rfl, rfl, rfl⟩

theorem step_pc_other (h : Step storage s a s') {u : Thread} (hu : u ≠ actor a) :
    s'.pc u = s.pc u := by
  cases h with
  | spin _ => rfl
  | created outcome hpc hcreate =>
    rw [(create_goto hpc hcreate).1]
    exact Function.update_of_ne hu _ _
  | _ => exact Function.update_of_ne hu _ _

theorem step_pending (h : Step storage s a s') {u : Thread} {op : k.primitive.Op}
    (hop : pending (s'.pc u) = some op) : pending (s.pc u) = some op ∨ a = .invoke u op := by
  by_cases hu : u = actor a
  · subst hu
    cases h with
    | spin _ => exact .inl hop
    | created outcome hpc hcreate =>
      rw [(create_goto hpc hcreate).1] at hop
      simp only [actor, Lock.goto, Function.update_self, pending] at hop
      simp only [actor, hpc, pending]
      exact .inl hop
    | invoke hpc =>
      simp only [actor, Lock.goto, Function.update_self, pending, Option.some.injEq] at hop
      exact .inr (by rw [hop]; rfl)
    | performed hpc _ =>
      simp only [actor, Lock.goto, Function.update_self, pending] at hop
      cases hop
    | fastPath hpc _ | slowPath hpc | enter hpc _ | alreadyResolved hpc _ | unresolved hpc _
    | provided hpc _ | unprovided hpc _ | select hpc | publish hpc | leave hpc =>
      simp only [actor, Lock.goto, Function.update_self, pending] at hop
      simp only [actor, hpc, pending]
      exact .inl hop
  · rw [step_pc_other h hu] at hop
    exact .inl hop

theorem step_history (h : Step storage s a s') :
    s'.history = s.history ∨ ∃ t op ret, pending (s.pc t) = some op ∧ s'.pc t = .idle ∧
      s'.history = s.history ++ [⟨t, op, ret⟩] := by
  cases h with
  | created outcome hpc hcreate => exact .inl (create_goto hpc hcreate).2.1
  | performed hpc _ =>
    exact .inr ⟨_, _, _, by rw [hpc]; rfl, Function.update_self _ _ _, rfl⟩
  | _ => exact .inl rfl

end

section
variable {Thread : Type} [DecidableEq Thread] {Mode : Type} [DecidableEq Mode]
  {history : List (Call Thread (LockOp Mode) Bool)}

omit [DecidableEq Thread] [DecidableEq Mode] in
theorem lockEntries_append (c : Call Thread (LockOp Mode) Bool) :
    lockEntries (history ++ [c]) = lockEntries history ++ (lockEntry c).toList := by
  unfold lockEntries
  rw [List.filterMap_append]
  cases hc : lockEntry c <;> simp [hc]

theorem holds_append_other {t u : Thread} (hu : u ≠ t) (op : LockOp Mode) (ret : Bool) (m : Mode) :
    Holds (history ++ [⟨t, op, ret⟩]) u m ↔ Holds history u m := by
  unfold Holds acquisitions releases
  rw [lockEntries_append, List.count_append, List.count_append]
  have hne : ∀ n : Mode, (t, n) ≠ (u, m) := fun n he => hu (Prod.mk.inj he).1.symm
  have ha : (lockEntry (⟨t, op, ret⟩ : Call Thread (LockOp Mode) Bool)).toList.count
      (.acquire (u, m)) = 0 := by
    cases op <;> cases ret <;> simp [lockEntry, hne]
  have hr : (lockEntry (⟨t, op, ret⟩ : Call Thread (LockOp Mode) Bool)).toList.count
      (.release (u, m)) = 0 := by
    cases op <;> cases ret <;> simp [lockEntry, hne]
  rw [ha, hr, Nat.add_zero, Nat.add_zero]

end

section
variable {Thread : Type} [DecidableEq Thread] {Mode : Type} [DecidableEq Mode]
  {admits : Multiset (Thread × Mode) → Thread × Mode → Bool} {factory : Factory}

def releaseAsked : WorldAction (lockKind admits factory) → Option (Thread × Mode)
  | .act (.invoke t (LockOp.unlock m)) => some (t, m)
  | _ => none

/-- A thread asks to release only what it holds by the calls it has completed. -/
def Disciplined (w : World (lockKind admits factory)) (a : WorldAction (lockKind admits factory)) :
    Prop :=
  ∀ h ∈ releaseAsked a, Holds w.lock.history h.1 h.2

instance (w : World (lockKind admits factory)) (a : WorldAction (lockKind admits factory)) :
    Decidable (Disciplined w a) :=
  have _held : ∀ h : Thread × Mode, Decidable (Holds w.lock.history h.1 h.2) :=
    fun h => decidableHolds w.lock.history h.1 h.2
  inferInstanceAs (Decidable (∀ h ∈ releaseAsked a, Holds w.lock.history h.1 h.2))

def ReleasesHeld (s : Lock (lockKind admits factory)) : Prop :=
  ∀ t m, pending (s.pc t) = some (LockOp.unlock m) → Holds s.history t m

theorem initial_releasesHeld : ReleasesHeld (initial (lockKind admits factory)) := by
  intro t m hop
  cases hop

theorem releasesHeld_step {storage : ProviderStorage} {s s' : Lock (lockKind admits factory)}
    {a : Action (lockKind admits factory)} (hs : ReleasesHeld s)
    (hd : ∀ t m, a = .invoke t (LockOp.unlock m) → Holds s.history t m)
    (h : Step storage s a s') : ReleasesHeld s' := by
  intro t m hop
  have before : Holds s.history t m := by
    rcases step_pending h hop with hold | hnew
    · exact hs t m hold
    · exact hd t m hnew
  rcases step_history h with same | ⟨u, op, ret, _, hidle, grown⟩
  · rw [same]
    exact before
  · have hne : t ≠ u := by
      intro htu
      rw [htu, hidle] at hop
      cases hop
    rw [grown]
    exact (holds_append_other hne op ret m).mpr before

/-- All calls on the wrapper are calls of one lock, and a release reaches the hold it ends. -/
structure SingleLock (s : Lock (lockKind admits factory)) : Prop where
  legal : (lockPrimitive admits).Legal s.history
  target : ∀ t u op op' p q, s.pc t = .callPrimitive op p → s.pc u = .callPrimitive op' q → p = q
  release : ∀ t m p, s.pc t = .callPrimitive (LockOp.unlock m) p →
    ((lockPrimitive admits).perform (s.objects p) t (LockOp.unlock m) true).isSome
  balanced : ∀ t m, releases (t, m) (lockEntries s.history) ≤ acquisitions (t, m) (lockEntries s.history)

theorem singleLock_of_invariant {s : Lock (lockKind admits factory)} (hi : Invariant s)
    (hs : ReleasesHeld s) : SingleLock s := by
  have legal : (lockPrimitive admits).Legal s.history := by
    cases hr : s.resolved with
    | none => exact ⟨_, by rw [(hi.unused hr).1]; rfl⟩
    | some p => exact ⟨_, hi.single p hr⟩
  refine ⟨legal, ?_, ?_, ?_⟩
  · intro t u op op' p q ht hu
    have htp := hi.knows t
    have huq := hi.knows u
    rw [ht] at htp
    rw [hu] at huq
    exact Option.some.inj (htp.symm.trans huq)
  · intro t m p ht
    have hr := hi.knows t
    rw [ht] at hr
    have hheld := hs t m (by rw [ht]; rfl)
    have hmem := (holds_iff_mem (hi.single p hr) t m).mp hheld
    change (post admits (s.objects p) (.release (t, m))).isSome
    simp only [post]
    rw [if_pos hmem]
    rfl
  · intro t m
    obtain ⟨held, hheld⟩ := legal
    have hc := count_run_empty (run_lock_entries hheld) (t, m)
    omega

theorem step_active {k : Kind Thread} {storage : ProviderStorage} {s s' : Lock k} {a : Action k}
    (called : ∀ t op, a ≠ .invoke t op) (h : Step storage s a s') :
    ∃ op, pending (s.pc (actor a)) = some op := by
  cases h with
  | invoke _ => exact absurd rfl (called _ _)
  | fastPath hpc _ | slowPath hpc | spin hpc | enter hpc _ | alreadyResolved hpc _
  | unresolved hpc _ | provided hpc _ | unprovided hpc _ | created _ hpc _ | select hpc
  | publish hpc | leave hpc | performed hpc _ => exact ⟨_, by rw [actor, hpc]; rfl⟩

theorem call_cases {k : Kind Thread} {storage : ProviderStorage} {s s' : Lock k} {a : Action k}
    (h : Step storage s a s') {op : k.primitive.Op} (hop : pending (s.pc (actor a)) = some op) :
    (pending (s'.pc (actor a)) = some op ∧ s'.history = s.history) ∨
      (s'.pc (actor a) = .idle ∧ ∃ ret, s'.history = s.history ++ [⟨actor a, op, ret⟩]) := by
  cases h with
  | invoke hpc =>
    rw [actor, hpc] at hop
    cases hop
  | spin _ => exact .inl ⟨hop, rfl⟩
  | created outcome hpc hcreate =>
    rw [actor, hpc] at hop
    rw [(create_goto hpc hcreate).1, (create_goto hpc hcreate).2.1]
    exact .inl ⟨by simpa only [actor, Lock.goto, Function.update_self, pending] using hop, rfl⟩
  | performed hpc _ =>
    rw [actor, hpc] at hop
    simp only [pending, Option.some.injEq] at hop
    exact .inr ⟨Function.update_self _ _ _, _, by rw [← hop]; rfl⟩
  | fastPath hpc _ | slowPath hpc | enter hpc _ | alreadyResolved hpc _ | unresolved hpc _
  | provided hpc _ | unprovided hpc _ | select hpc | publish hpc | leave hpc =>
    rw [actor, hpc] at hop
    exact .inl ⟨by simpa only [actor, Lock.goto, Function.update_self, pending] using hop, rfl⟩

theorem legal_append {history : List (Call Thread (LockOp Mode) Bool)}
    {c : Call Thread (LockOp Mode) Bool} (h : (lockPrimitive admits).Legal (history ++ [c])) :
    ∃ held held', run (lockPrimitive admits).next (lockPrimitive admits).init history = some held ∧
      lockPerform admits held c.thread c.op c.ret = some held' ∧
      run (lockPrimitive admits).next (lockPrimitive admits).init (history ++ [c]) = some held' := by
  obtain ⟨held', hrun⟩ := h
  obtain ⟨held, hheld, hlast⟩ :=
    Option.bind_eq_some_iff.mp ((run_append _ _ history [c]).symm.trans hrun)
  exact ⟨held, held', hheld, (run_singleton _ held c).symm.trans hlast, hrun⟩

theorem holds_after_lock {history : List (Call Thread (LockOp Mode) Bool)} {t : Thread} {m : Mode}
    {ret : Bool} (h : (lockPrimitive admits).Legal (history ++ [⟨t, .lock m, ret⟩])) :
    Holds (history ++ [⟨t, .lock m, ret⟩]) t m := by
  obtain ⟨held, held', _, hlast, hrun⟩ := legal_append h
  rw [holds_iff_mem hrun]
  cases ret with
  | false => cases hlast
  | true =>
    have acquired : post admits held (.acquire (t, m)) = some held' := hlast
    rw [(post_acquire acquired).2]
    exact Multiset.mem_cons_self _ _

theorem worldNext_cases {k : Kind Thread} {w w' : World k} {a : WorldAction k}
    (h : worldNext w a = some w') :
    w'.lock = w.lock ∨ ∃ b, a = .act b ∧ Step w.storage w.lock b w'.lock := by
  cases a with
  | change c =>
    rw [← Option.some.inj h]
    exact .inl rfl
  | act b =>
    obtain ⟨lock, hlock, rfl⟩ := Option.map_eq_some_iff.mp h
    exact .inr ⟨b, rfl, step_cases hlock⟩

theorem singleLock_run {storage : ProviderStorage} {as : List (WorldAction (lockKind admits factory))}
    {w : World (lockKind admits factory)}
    (hd : Meets worldNext Disciplined (initialWorld (lockKind admits factory) storage) as)
    (h : run worldNext (initialWorld (lockKind admits factory) storage) as = some w) :
    SingleLock w.lock := by
  have hboth : Invariant w.lock ∧ ReleasesHeld w.lock := by
    refine invariant_of_meets (C := Disciplined)
      (I := fun v : World (lockKind admits factory) => Invariant v.lock ∧ ReleasesHeld v.lock)
      ?_ ⟨initial_invariant _, initial_releasesHeld⟩ hd h
    intro v a v' hdv hv hstep
    rcases worldNext_cases hstep with same | ⟨b, rfl, hb⟩
    · rw [same]
      exact hv
    · exact ⟨step_invariant hv.1 hb,
        releasesHeld_step hv.2 (fun t m hm => hdv (t, m) (by rw [hm]; rfl)) hb⟩
  exact singleLock_of_invariant hboth.1 hboth.2

end

section
variable {Thread : Type} [DecidableEq Thread]

theorem mutex_exclusion {s : Lock (mutex Thread)} (h : SingleLock s) {t u : Thread}
    (ht : Holds s.history t ()) (hu : Holds s.history u ()) : t = u := by
  obtain ⟨held, hheld⟩ := h.legal
  have htm := (holds_iff_mem hheld t ()).mp ht
  have hum := (holds_iff_mem hheld u ()).mp hu
  rw [exclusive_single (run_lock_entries hheld) _ hum] at htm
  exact (Prod.mk.inj (Multiset.mem_singleton.mp htm)).1

theorem recursiveMutex_owner {s : Lock (recursiveMutex Thread)} (h : SingleLock s) {t u : Thread}
    (ht : Holds s.history t ()) (hu : Holds s.history u ()) : t = u := by
  obtain ⟨held, hheld⟩ := h.legal
  exact recursive_single (run_lock_entries hheld) _ ((holds_iff_mem hheld t ()).mp ht)
    _ ((holds_iff_mem hheld u ()).mp hu)

theorem recursiveMutex_free {s : Lock (recursiveMutex Thread)} (h : SingleLock s) {t u : Thread}
    (ht : Holds s.history t ()) (hu : u ≠ t) :
    releases (u, ()) (lockEntries s.history) = acquisitions (u, ()) (lockEntries s.history) := by
  by_contra hne
  have hle := h.balanced u ()
  have hholds : Holds s.history u () := by
    unfold Holds
    omega
  exact hu (recursiveMutex_owner h hholds ht)

theorem readWriteLock_writer {s : Lock (readWriteLock Thread)} (h : SingleLock s) {t u : Thread}
    {access : Access} (ht : Holds s.history t .exclusive) (hu : Holds s.history u access) :
    u = t ∧ access = .exclusive := by
  obtain ⟨held, hheld⟩ := h.legal
  have honly := readWrite_writer (run_lock_entries hheld) t ((holds_iff_mem hheld t _).mp ht)
  have hum := (holds_iff_mem hheld u access).mp hu
  rw [honly] at hum
  exact Prod.mk.inj (Multiset.mem_singleton.mp hum)

/-- Each lazily resolved lock behaves as one lock, whatever the factories do and whenever
providers come and go. -/
theorem lazy_locks_are_single (storage : ProviderStorage) :
    (∀ as w, Meets worldNext Disciplined (initialWorld (mutex Thread) storage) as →
      run worldNext (initialWorld (mutex Thread) storage) as = some w →
      SingleLock w.lock ∧
        ∀ t u, Holds w.lock.history t () → Holds w.lock.history u () → t = u) ∧
    (∀ as w, Meets worldNext Disciplined (initialWorld (recursiveMutex Thread) storage) as →
      run worldNext (initialWorld (recursiveMutex Thread) storage) as = some w →
      SingleLock w.lock ∧
        (∀ t u, Holds w.lock.history t () → Holds w.lock.history u () → t = u) ∧
        ∀ t u, Holds w.lock.history t () → u ≠ t →
          releases (u, ()) (lockEntries w.lock.history) =
            acquisitions (u, ()) (lockEntries w.lock.history)) ∧
    (∀ as w, Meets worldNext Disciplined (initialWorld (readWriteLock Thread) storage) as →
      run worldNext (initialWorld (readWriteLock Thread) storage) as = some w →
      SingleLock w.lock ∧
        ∀ t u access, Holds w.lock.history t .exclusive → Holds w.lock.history u access →
          u = t ∧ access = .exclusive) := by
  refine ⟨?_, ?_, ?_⟩
  · intro as w hd h
    have single := singleLock_run hd h
    exact ⟨single, fun _ _ => mutex_exclusion single⟩
  · intro as w hd h
    have single := singleLock_run hd h
    exact ⟨single, fun _ _ => recursiveMutex_owner single, fun _ _ => recursiveMutex_free single⟩
  · intro as w hd h
    have single := singleLock_run hd h
    exact ⟨single, fun _ _ _ => readWriteLock_writer single⟩

/-- A thread acquires before any provider is installed and releases after one is. -/
def lateProvider {k : Kind ℕ} (acquire release : k.primitive.Op) (done : k.primitive.Ret) :
    List (WorldAction k) :=
  [.act (.invoke 0 acquire), .act (.advance 0), .act (.advance 0), .act (.advance 0),
    .act (.advance 0), .act (.advance 0), .act (.advance 0), .act (.advance 0),
    .act (.perform 0 done), .change (.setProvider (some 5)), .act (.invoke 0 release),
    .act (.advance 0), .act (.perform 0 done)]

theorem lazy_locks_are_single_late :
    (∃ w, run worldNext (initialWorld (mutex ℕ) initialStorage)
      (lateProvider (LockOp.lock ()) (LockOp.unlock ()) true) = some w ∧ SingleLock w.lock) ∧
    (∃ w, run worldNext (initialWorld (recursiveMutex ℕ) initialStorage)
      (lateProvider (LockOp.tryLock ()) (LockOp.unlock ()) true) = some w ∧ SingleLock w.lock) ∧
    ∃ w, run worldNext (initialWorld (readWriteLock ℕ) initialStorage)
      (lateProvider (LockOp.lock .shared) (LockOp.unlock .shared) true) = some w ∧
        SingleLock w.lock := by
  have hmutex : (run worldNext (initialWorld (mutex ℕ) initialStorage)
      (lateProvider (LockOp.lock ()) (LockOp.unlock ()) true)).isSome := by decide +kernel
  have hrecursive : (run worldNext (initialWorld (recursiveMutex ℕ) initialStorage)
      (lateProvider (LockOp.tryLock ()) (LockOp.unlock ()) true)).isSome := by decide +kernel
  have hreadWrite : (run worldNext (initialWorld (readWriteLock ℕ) initialStorage)
      (lateProvider (LockOp.lock .shared) (LockOp.unlock .shared) true)).isSome := by decide +kernel
  obtain ⟨v, hv⟩ := Option.isSome_iff_exists.mp hmutex
  obtain ⟨w, hw⟩ := Option.isSome_iff_exists.mp hrecursive
  obtain ⟨x, hx⟩ := Option.isSome_iff_exists.mp hreadWrite
  obtain ⟨single, singleRecursive, singleReadWrite⟩ := @lazy_locks_are_single ℕ _ initialStorage
  exact ⟨⟨v, hv, (single _ v (by decide +kernel) hv).1⟩,
    ⟨w, hw, (singleRecursive _ w (by decide +kernel) hw).1⟩,
    ⟨x, hx, (singleReadWrite _ x (by decide +kernel) hx).1⟩⟩

end

end ESPressioSystem.Locks
