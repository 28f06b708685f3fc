import Mathlib.Logic.ExistsUnique
import ESPressioSystem.Locks

set_option autoImplicit false

/-!
# A lazy lock is resolved once, and for all threads alike
-/
namespace ESPressioSystem.OnceOnlyResolution
open Transition SharedObject SynchronizationProvider LazyLock Locks

section
variable {Thread : Type} [DecidableEq Thread] {k : Kind Thread}

def callsFactory (_ : Lock k) : Action k → Bool
  | .create _ _ => true
  | .invoke _ _ | .advance _ | .perform _ _ => false

/-- An assignment to `_owned`; a factory that throws leaves before it. -/
def writesOwned (_ : Lock k) : Action k → Bool
  | .create _ .object | .create _ .null => true
  | .create _ .exception | .invoke _ _ | .advance _ | .perform _ _ => false

def makesObject (_ : Lock k) : Action k → Bool
  | .create _ .object => true
  | .create _ .null | .create _ .exception | .invoke _ _ | .advance _ | .perform _ _ => false

def storesResolved (s : Lock k) : Action k → Bool
  | .advance t =>
    match s.pc t with
    | .storeResolved _ _ => true
    | _ => false
  | .invoke _ _ | .create _ _ | .perform _ _ => false

def amongProviders (C : Lock k → Action k → Bool) (s : Lock k) (a : ProviderStorage × Action k) :
    Bool :=
  C s a.2

def onLock (C : Lock k → Action k → Bool) (w : World k) : WorldAction k → Bool
  | .change _ => false
  | .act a => C w.lock a

variable {storage : ProviderStorage} {s s' : Lock k} {a : Action k}

theorem factoryCalls_step (h : Step storage s a s') :
    s'.factoryCalls.length = s.factoryCalls.length + (callsFactory s a).toNat := by
  cases h with
  | created outcome hpc hcreate =>
    simp only [create, hpc] at hcreate
    cases outcome with
    | object | null | exception =>
      rw [← Option.some.inj hcreate]
      exact List.length_append
  | _ => rfl

theorem owned_step (hs : Invariant s) (h : Step storage s a s') :
    s'.owned.isSome.toNat = s.owned.isSome.toNat + (makesObject s a).toNat := by
  cases h with
  | created outcome hpc hcreate =>
    obtain ⟨_, howned, _⟩ := hs.knows_at hpc
    simp only [create, hpc] at hcreate
    rw [howned]
    cases outcome with
    | object | null =>
      rw [← Option.some.inj hcreate]
      rfl
    | exception =>
      rw [← Option.some.inj hcreate]
      exact congrArg (fun owned : Option ℕ => owned.isSome.toNat) howned
  | _ => rfl

theorem resolved_step (hs : Invariant s) (h : Step storage s a s') :
    s'.resolved.isSome.toNat = s.resolved.isSome.toNat + (storesResolved s a).toNat := by
  cases h with
  | created outcome hpc hcreate =>
    rw [(create_goto hpc hcreate).2.2]
    rfl
  | publish hpc =>
    obtain ⟨hr, _⟩ := hs.knows_at hpc
    simp only [storesResolved, hpc, hr]
    rfl
  | invoke _ | performed _ _ => rfl
  | fastPath hpc _ | slowPath hpc | spin hpc | enter hpc _ | alreadyResolved hpc _
  | unresolved hpc _ | provided hpc _ | unprovided hpc _ | select hpc | leave hpc =>
    simp only [storesResolved, hpc]
    rfl

def Settled (s s' : Lock k) : Prop :=
  s.resolved.isSome → s'.resolved = s.resolved ∧ s'.owned = s.owned ∧
    s'.factoryCalls = s.factoryCalls

theorem settled_step (hs : Invariant s) (h : Step storage s a s') : Settled s s' := by
  intro published
  cases h with
  | created outcome hpc _ =>
    rw [(hs.knows_at hpc).1] at published
    cases published
  | publish hpc =>
    rw [(hs.knows_at hpc).1] at published
    cases published
  | _ => exact ⟨rfl, rfl, rfl⟩

section
variable {as : List (ProviderStorage × Action k)}

theorem settled_run (hs : Invariant s) (h : run next s as = some s') : Settled s s' := by
  refine relation_of_run (fun _ _ => ⟨rfl, rfl, rfl⟩) ?_ (fun _ _ _ => next_invariant)
    (fun _ _ _ hs h => settled_step hs (next_cases h)) hs h
  intro s t u hst htu published
  obtain ⟨hr, howned, hcalls⟩ := hst published
  obtain ⟨hr', howned', hcalls'⟩ := htu (hr ▸ published)
  exact ⟨hr'.trans hr, howned'.trans howned, hcalls'.trans hcalls⟩

theorem lock_balance {f : Lock k → ℕ} {C : Lock k → Action k → Bool}
    (counts : ∀ storage s a s', Invariant s → Step storage s a s' → f s' = f s + (C s a).toNat)
    (hs : Invariant s) (h : run next s as = some s') :
    f s' = f s + occurrences next (amongProviders C) s as :=
  balance_of_run (fun _ _ _ => next_invariant)
    (fun s a s' hs h => counts a.1 s a.2 s' hs (next_cases h)) hs h

theorem factoryCalls_run (hs : Invariant s) (h : run next s as = some s') :
    s'.factoryCalls.length =
      s.factoryCalls.length + occurrences next (amongProviders callsFactory) s as :=
  lock_balance (fun _ _ _ _ _ => factoryCalls_step) hs h

theorem writesOwned_le (s : Lock k) (as : List (ProviderStorage × Action k)) :
    occurrences next (amongProviders writesOwned) s as ≤
      occurrences next (amongProviders callsFactory) s as := by
  refine occurrences_mono (fun s a ha => ?_) s as
  obtain ⟨_, _ | _ | ⟨_, _⟩ | _⟩ := a <;> first | rfl | cases ha

end

omit [DecidableEq Thread] in
theorem guard_iff {s : Lock k} (hs : Invariant s) :
    s.resolutionGuard = true ↔ ∃! t, (s.pc t).InGuard := by
  constructor
  · intro busy
    obtain ⟨t, ht⟩ := hs.token.held.mp busy
    exact ⟨t, ht, fun u hu => hs.token.single u t hu ht⟩
  · rintro ⟨t, ht, _⟩
    exact hs.token.held.mpr ⟨t, ht⟩

omit [DecidableEq Thread] in
theorem published_iff {s : Lock k} (hs : Invariant s) {made : ℕ}
    (counted : s.owned.isSome.toNat = made) {p : Pointer} (hp : s.resolved = some p) :
    (made = 0 → p = .fallback) ∧ (0 < made → ∃ n, s.owned = some n ∧ p = .created n) := by
  have chosen := hs.published p hp
  subst counted
  cases howned : s.owned with
  | none =>
    rw [howned] at chosen
    exact ⟨fun _ => chosen, fun h => absurd h (Nat.lt_irrefl 0)⟩
  | some n =>
    rw [howned] at chosen
    exact ⟨fun h => absurd h Nat.one_ne_zero, fun _ => ⟨n, rfl, chosen⟩⟩

/-- A world shows its lock the storage of each moment, and counts what the lock counts. -/
theorem lock_run {w w' : World k} {as : List (WorldAction k)} (h : run worldNext w as = some w') :
    ∃ bs, run next w.lock bs = some w'.lock ∧
      ∀ C, occurrences next (amongProviders C) w.lock bs = occurrences worldNext (onLock C) w as := by
  induction as generalizing w with
  | nil =>
    rw [run_nil, Option.some.injEq] at h
    exact ⟨[], h ▸ rfl, fun _ => rfl⟩
  | cons a as ih =>
    obtain ⟨u, hu, htail⟩ := (run_cons worldNext).mp h
    obtain ⟨bs, hbs, count⟩ := ih htail
    cases a with
    | change c =>
      have same : u.lock = w.lock := by
        rw [← Option.some.inj hu]
      refine ⟨bs, same ▸ hbs, fun C => ?_⟩
      rw [occurrences_cons as hu, ← count C, same]
      exact (Nat.zero_add _).symm
    | act b =>
      obtain ⟨lock, hlock, rfl⟩ := Option.map_eq_some_iff.mp hu
      have first : next w.lock (w.storage, b) = some lock := hlock
      refine ⟨(w.storage, b) :: bs, (run_cons next).mpr ⟨lock, first, hbs⟩, fun C => ?_⟩
      rw [occurrences_cons as hu, occurrences_cons bs first, count C]
      rfl

/-- However many threads call `Resolve`, and whatever becomes of the providers: one thread is
inside the guard exactly while the flag is set, the factory is called and the primitive stored
once at most, the pointer is published once and for good, and everyone gets that pointer. -/
theorem lazy_lock_resolved_once (k : Kind Thread) (storage : ProviderStorage)
    {as bs : List (WorldAction k)} {w w' : World k}
    (h : run worldNext (initialWorld k storage) as = some w) (h' : run worldNext w bs = some w') :
    (w.lock.resolutionGuard = true ↔ ∃! t, (w.lock.pc t).InGuard) ∧
    occurrences worldNext (onLock callsFactory) (initialWorld k storage) as ≤ 1 ∧
    occurrences worldNext (onLock writesOwned) (initialWorld k storage) as ≤ 1 ∧
    occurrences worldNext (onLock storesResolved) (initialWorld k storage) as =
      w.lock.resolved.isSome.toNat ∧
    (∀ p, w.lock.resolved = some p →
      (occurrences worldNext (onLock makesObject) (initialWorld k storage) as = 0 → p = .fallback) ∧
      (0 < occurrences worldNext (onLock makesObject) (initialWorld k storage) as →
        ∃ n, w.lock.owned = some n ∧ p = .created n) ∧
      w'.lock.resolved = some p ∧ w'.lock.owned = w.lock.owned ∧
      occurrences worldNext (onLock writesOwned) w bs = 0) ∧
    ∀ t op p, w.lock.pc t = .callPrimitive op p →
      w.lock.resolved = some p ∧ w'.lock.resolved = some p := by
  obtain ⟨cs, hrun, count⟩ := lock_run h
  obtain ⟨ds, hrun', count'⟩ := lock_run h'
  have start : Invariant (initialWorld k storage).lock := LazyLock.initial_invariant k
  have hs : Invariant w.lock := run_invariant start hrun
  have calls : w.lock.factoryCalls.length =
      0 + occurrences next (amongProviders callsFactory) (initialWorld k storage).lock cs :=
    factoryCalls_run start hrun
  have made : w.lock.owned.isSome.toNat =
      0 + occurrences next (amongProviders makesObject) (initialWorld k storage).lock cs :=
    lock_balance (fun _ _ _ _ => owned_step) start hrun
  have stores : w.lock.resolved.isSome.toNat =
      0 + occurrences next (amongProviders storesResolved) (initialWorld k storage).lock cs :=
    lock_balance (fun _ _ _ _ => resolved_step) start hrun
  have once := hs.calledOnce
  have writes := writesOwned_le (initialWorld k storage).lock cs
  have settled := settled_run hs hrun'
  rw [count, Nat.zero_add] at calls made stores
  rw [count, count] at writes
  refine ⟨guard_iff hs, by omega, by omega, stores.symm, fun p hp => ?_, fun t op p hpc => ?_⟩
  · obtain ⟨hr, howned, hcalls⟩ := settled (by rw [hp]; rfl)
    obtain ⟨fallback, own⟩ := published_iff hs made hp
    have callsLater := factoryCalls_run hs hrun'
    have writesLater := writesOwned_le w.lock ds
    rw [count', hcalls] at callsLater
    rw [count', count'] at writesLater
    exact ⟨fallback, own, hr.trans hp, howned, by omega⟩
  · have hp : w.lock.resolved = some p := hs.knows_at hpc
    obtain ⟨hr, _⟩ := settled (by rw [hp]; rfl)
    exact ⟨hp, hr.trans hp⟩

def contended : List (WorldAction (mutex ℕ)) :=
  [.change (.setProvider (some 5)), .act (.invoke 0 (LockOp.lock ())),
    .act (.invoke 1 (LockOp.tryLock ())), .act (.advance 0), .act (.advance 1), .act (.advance 0),
    .act (.advance 1), .act (.advance 0), .act (.advance 0), .change .resetProvider,
    .act (.create 0 .exception), .act (.advance 0), .act (.advance 0), .act (.advance 1),
    .act (.advance 0)]

/-- Thread 1 gets the guard when another provider is there, and finds the lock resolved. -/
def afterwards : List (WorldAction (mutex ℕ)) :=
  [.change (.setProvider (some 6)), .act (.advance 1), .act (.advance 1), .act (.advance 1)]

theorem lazy_lock_resolved_once_contended :
    ∃ w w' : World (mutex ℕ),
      run worldNext (initialWorld (mutex ℕ) initialStorage) contended = some w ∧
      run worldNext w afterwards = some w' ∧ w.lock.resolved = some .fallback ∧
      w'.lock.resolved = some .fallback ∧
      occurrences worldNext (onLock writesOwned) w afterwards = 0 := by
  have reached : (run worldNext (initialWorld (mutex ℕ) initialStorage) contended).isSome := rfl
  have continues : (run worldNext (Option.get _ reached) afterwards).isSome := rfl
  have first := (Option.some_get reached).symm
  have second := (Option.some_get continues).symm
  obtain ⟨_, _, _, _, published, _⟩ :=
    lazy_lock_resolved_once (mutex ℕ) initialStorage first second
  obtain ⟨_, _, kept, _, unwritten⟩ := published .fallback rfl
  exact ⟨_, _, first, second, rfl, kept, unwritten⟩

end

end ESPressioSystem.OnceOnlyResolution
